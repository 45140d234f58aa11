/-! # Lines of code

Generated code is a tree of lines and of blocks in braces. Printing indents
each line by the blocks around it.
-/

namespace WireCodec

/-- A piece of generated code. -/
inductive Code where
  | line (text : String)
  | blank
  /-- Code in braces, with what stands before and behind them. -/
  | block (opening : String) (body : List Code) (closing : String)
deriving Repr

namespace Code

/-- Code in braces with nothing behind them. -/
def braces (opening : String) (body : List Code) : Code := block opening body ""

/-- A line of text at some depth. -/
def indented (depth : Nat) (text : String) : String :=
  String.ofList (List.replicate (4 * depth) ' ') ++ text ++ "\n"

mutual

/-- The text of a piece of code at some depth. -/
def print (depth : Nat) : Code → String
  | line text => indented depth text
  | blank => "\n"
  | block opening body closing =>
    indented depth (opening ++ "\x7b") ++ printAll (depth + 1) body ++
      indented depth ("\x7d" ++ closing)

/-- The text of several pieces of code at some depth. -/
def printAll (depth : Nat) : List Code → String
  | [] => ""
  | code :: rest => print depth code ++ printAll depth rest

end

end Code

end WireCodec
