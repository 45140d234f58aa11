import WireCodec.Proofs.Codec.RequiredFields
import WireCodec.Proofs.Plan.Coherent
import WireCodec.Proofs.Program.Encode
import WireCodec.Shapes.Plans

/-! # The plans of the package of shapes

The schema text of the package is compiled to its plans, in which types,
fields, variants and symbols are named apart.
-/

namespace WireCodec.Shapes

theorem parse_source : ∃ schema, parse source = .ok schema ∧ schema.DistinctFields ∧
    schema.build = .ok plans := by
  refine Except.exists_of_any ?_
  unfold parse tokenize source
  -- a literal is a list of letters, which need not be decoded from its bytes
  simp only [String.toList_append]
  repeat rw [String.toList_ofList]
  decide +kernel

theorem compile_source : ∃ schema, compile source = .ok schema ∧ schema.DistinctFields ∧
    schema.build = .ok plans := by
  obtain ⟨schema, hparse, hdistinct, hbuild⟩ := parse_source
  exact ⟨schema, compile_of_build hparse hbuild, hdistinct, hbuild⟩

theorem coherent_plans : plans.Coherent := by
  obtain ⟨schema, hcompile, hdistinct, hbuild⟩ := compile_source
  exact coherent_of_build hcompile hdistinct hbuild

theorem closed_plans : plans.Closed := by
  obtain ⟨schema, hcompile, -, hbuild⟩ := compile_source
  exact closed_of_build hcompile hbuild

theorem required_plans {plan : MessagePlan} (hplan : plan ∈ plans.messages) :
    plan.required = plan.fields.findIdxs (·.cardinality = .required) := by
  obtain ⟨schema, -, -, hbuild⟩ := compile_source
  exact Schema.required_of_build hbuild hplan

theorem distinctNames_plans : plans.DistinctNames where
  enums := by decide +kernel
  messages := by decide +kernel
  variants := by decide +kernel
  fields := by decide +kernel
  symbols := by
    unfold PlanSet.DistinctSymbols
    decide +kernel

theorem source_plans (mode : DeriveMode) : plans.source mode = program.text mode := by
  obtain ⟨schema, hcompile, -, hbuild⟩ := compile_source
  exact PlanSet.source_eq_text hcompile hbuild mode

end WireCodec.Shapes
