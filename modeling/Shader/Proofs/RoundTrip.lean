import Shader.Proofs.Assembly

/-!
# What is built can be read back

Every module that building operations lead to is in order, whatever operations failed on the way. If it
can be written, it is therefore read back from its words.
-/

namespace Shader

theorem Workbench.run_complete (config : Config) (ops : List Operation) (hops : ∀ op ∈ ops, op.builds) :
    ((start config).run ops).module.Complete := by
  have hassembled := run_assembled config ops hops
  have hregistered : ((start config).run ops).Registered :=
    run_keeps (fun hchange hw => (hchange.headers hw).1) ops hops fun _ h => nomatch h
  refine ⟨(run_orderly config ops hops).ledger.arranged, fun f hf => hassembled.isFinished hf, fun f hf => ?_⟩
  exact hregistered f.header (List.mem_append_left _ (List.mem_map_of_mem hf))

/-- A module that building operations lead to, whichever failed, is read back from its words as it was
written, and has the same words again. -/
theorem run_reads_back (config : Config) (ops : List Operation) (hbuilds : ∀ op ∈ ops, op.builds)
    (hnames : ∀ inst ∈ ((Workbench.start config).run ops).module.instructions, inst.NulFree) {words : List Word}
    (hwords : ((Workbench.start config).run ops).module.toWords = .ok words) : ∃ m, Module.ofWords words = .ok m ∧
      m.written = ((Workbench.start config).run ops).module.written ∧ m.toWords = .ok words := by
  obtain ⟨m, hread, hwritten⟩ :=
    Module.ofWords_of_toWords (Workbench.run_complete config ops hbuilds).readable hnames hwords
  refine ⟨m, hread, hwritten, ?_⟩
  rw [← Module.toWords_written, hwritten, Module.toWords_written, hwords]

def Operation.calling : List Operation :=
  let n : Variable := .root "n" (.scalar .int) {}
  let k : Variable := .root "k" (.scalar .int) { functionLocal := true }
  let twice : Variable := .root "twice" (.function (.scalar .int) [n]) {}
  let result : Variable := .root "result" (.scalar .int) { output := true }
  let call : Expr := ⟨.scalar .int, .call twice [.literal (.int 21)]⟩
  [.openFunction "main" .void [], .freshBlock, .lower (.assign none (.ident k) call),
    .lower (.assign none call call), .lower (.assign none (.ident result) (.ident k)),
    .terminate (.effect .Return []), .appendBlock, .closeFunction,
    .openFunction "twice" (.scalar .int) [n], .freshBlock,
    .lower ⟨.scalar .int, .binary .add (.ident n) (.ident n)⟩,
    .terminate (.effect .ReturnValue [18]), .appendBlock, .closeFunction,
    .entryPoint 2 "main" [] [12], .executionMode .LocalSize [1, 1, 1]]

theorem calling_reads_back : (∀ op ∈ Operation.calling, op.builds) ∧
      (∀ inst ∈ ((Workbench.start {}).run Operation.calling).module.instructions, inst.NulFree) ∧
      ∃ words, ((Workbench.start {}).run Operation.calling).module.toWords = .ok words ∧
        ∃ m, Module.ofWords words = .ok m ∧ m.written = ((Workbench.start {}).run Operation.calling).module.written ∧
          m.toWords = .ok words := by
  have hbuilds : ∀ op ∈ Operation.calling, op.builds := by decide
  have hnames : ∀ inst ∈ ((Workbench.start {}).run Operation.calling).module.instructions,
      inst.NulFree := by decide +kernel
  have hok : ((Workbench.start {}).run Operation.calling).module.toWords.isOk := by decide +kernel
  cases hwords : ((Workbench.start {}).run Operation.calling).module.toWords with
  | error e =>
    rw [hwords] at hok
    cases hok
  | ok words => exact ⟨hbuilds, hnames, words, rfl, run_reads_back {} Operation.calling hbuilds hnames hwords⟩

end Shader
