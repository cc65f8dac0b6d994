import Mathlib
import Sequencer.Assembly

/-!
# The passes behind a program

A program is what linking gives for the draft that reading and validation left. Properties of
programs are proved from those of the three passes.
-/

namespace Sequencer

/-- The draft that the first pass leaves to the second. -/
def Reader.draft (reader : Reader) (commands : List Command) : Draft where
  commands := commands
  symbols := reader.symbols
  report := reader.report

/-- A program made of a linked draft and the constants of its source. -/
def Draft.program (draft : Draft) (constants : Constants) : Program := { draft with constants }

theorem assembleInto_of_read {settings : Settings} {report : Report} {source : List SourceLine}
    {reader : Reader} {commands : List Command}
    (hread : ({ report } : Reader).read source = (reader, .ok commands)) :
    assembleInto settings report source =
      let result := Draft.andThen
        ((reader.draft commands).validate reader.constants settings.branchAlignment) Draft.link
      (result.1.report, result.2.map fun _ ↦ result.1.program reader.constants) := by
  unfold assembleInto
  rw [hread]
  rfl

/-- Once the first two passes succeeded, linking decides. -/
theorem assembleInto_of_validate {settings : Settings} {report : Report} {source : List SourceLine}
    {reader : Reader} {commands : List Command} {validated : Draft}
    (hread : ({ report } : Reader).read source = (reader, .ok commands))
    (hvalidate : (reader.draft commands).validate reader.constants settings.branchAlignment =
      (validated, .ok ())) :
    assembleInto settings report source =
      (validated.link.1.report,
        validated.link.2.map fun _ ↦ validated.link.1.program reader.constants) := by
  rw [assembleInto_of_read hread, hvalidate]
  rfl

/-- A program comes out of a run in which every pass succeeded. -/
theorem exists_passes_of_assembleInto {settings : Settings} {report : Report}
    {source : List SourceLine} {program : Program}
    (h : (assembleInto settings report source).2 = .ok program) :
    ∃ reader commands validated,
      ({ report } : Reader).read source = (reader, .ok commands) ∧
      (reader.draft commands).validate reader.constants settings.branchAlignment =
        (validated, .ok ()) ∧
      validated.link = (program.toDraft, .ok ()) ∧ program.constants = reader.constants := by
  rcases hread : ({ report } : Reader).read source with ⟨reader, failure | commands⟩
  · simp [assembleInto, hread] at h
  rcases hvalidate : (reader.draft commands).validate reader.constants settings.branchAlignment
    with ⟨validated, failure | ⟨⟩⟩
  · rw [assembleInto_of_read hread, hvalidate] at h
    cases h
  rw [assembleInto_of_validate hread hvalidate] at h
  rcases hlink : validated.link with ⟨linked, failure | ⟨⟩⟩
  · rw [hlink] at h
    cases h
  · rw [hlink] at h
    obtain rfl := Except.ok.inj h
    exact ⟨reader, commands, validated, rfl, hvalidate, hlink, rfl⟩

theorem assemble_eq_assembleInto {settings : Settings} {source : List SourceLine}
    {program : Program} (h : (assemble settings source).2 = .ok program) :
    settings.validate = .ok () ∧ assemble settings source =
      assembleInto settings (.start settings.warningLimit) source := by
  unfold assemble at h ⊢
  rcases hsettings : settings.validate with failure | ⟨⟩
  · simp [hsettings] at h
  · exact ⟨rfl, rfl⟩

end Sequencer
