import WireCodec.Wire.Buffer

/-! # Buffer pools

A pool keeps the buffers that are not in use, so that their storage serves
the next payload. The buffer released last is handed out first.
-/

namespace WireCodec

/-- Reset buffers, the one released last in front. -/
structure BufferPool where
  idle : List Buffer
deriving Repr

namespace BufferPool

def empty : BufferPool := ⟨[]⟩

/-- An idle buffer, or a new one if there is none, and the pool without it. -/
def acquire (pool : BufferPool) : Buffer × BufferPool :=
  match pool.idle with
  | [] => (Buffer.empty, pool)
  | buffer :: rest => (buffer, ⟨rest⟩)

/-- Takes a buffer back, reset. -/
def release (pool : BufferPool) (buffer : Buffer) : BufferPool := ⟨buffer.reset :: pool.idle⟩

end BufferPool

/-- A pool together with the buffers its users hold, in the order in which
they were handed out; a buffer that was given back leaves its place empty. -/
structure PoolSession where
  pool : BufferPool
  held : List (Option Buffer)

namespace PoolSession

def empty : PoolSession := ⟨.empty, []⟩

def acquire (session : PoolSession) : PoolSession :=
  let (buffer, pool) := session.pool.acquire
  ⟨pool, session.held ++ [some buffer]⟩

/-- Writes to the buffer in a place, if there is one. -/
def write (session : PoolSession) (slot : Nat) (payload : Bytes) : PoolSession :=
  { session with held := session.held.modify slot (Option.map (·.writeRaw payload)) }

/-- Gives the buffer in a place back, if there is one. -/
def release (session : PoolSession) (slot : Nat) : PoolSession :=
  match session.held[slot]? with
  | some (some buffer) => ⟨session.pool.release buffer, session.held.set slot none⟩
  | _ => session

end PoolSession

end WireCodec
