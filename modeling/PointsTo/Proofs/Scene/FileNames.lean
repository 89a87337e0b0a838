import PointsTo.Model.Worker
import PointsTo.Proofs.Ensures
import PointsTo.Scene.Draft
import PointsTo.Scene.Scope

/-! Which file a name stands for. Exact names have no precedence over stems and path components: the
first file that answers in any way is taken. -/
namespace PointsTo

/-- The file answers to the name though it need not have it: the stems agree, or its own ends with the
wanted one as a path component. -/
def SourceFile.Rivals (f : SourceFile) (name : String) : Prop :=
  Scene.stem f.name.toList = Scene.stem (Scene.dropCurrent name.toList) ∨
    ('/' :: Scene.stem (Scene.dropCurrent name.toList)) <:+ Scene.stem f.name.toList

namespace Scene

variable {name : String}

/-- None of the files before the first one of that name answers to it. -/
def Unrivalled (s : Scene) (name : String) : Prop :=
  ∀ f ∈ s.files.toList.takeWhile (·.name != name), ¬ f.Rivals name

theorem answersTo_iff {f : SourceFile} : answersTo f name = true ↔ f.name = name ∨ f.Rivals name := by
  simp only [answersTo, SourceFile.Rivals, Bool.or_eq_true, beq_iff_eq, List.isSuffixOf_iff_suffix,
    or_assoc]

/-- The search passes over a file of that name only for a rival before it. -/
theorem find?_answersTo {l : List SourceFile} (h : ∃ f ∈ l, f.name = name) :
    ∃ f ∈ l, l.find? (answersTo · name) = some f ∧
      (f.name = name ↔ ∀ g ∈ l.takeWhile (·.name != name), ¬ g.Rivals name) := by
  induction l with
  | nil => simp at h
  | cons g l ih =>
    by_cases hname : g.name = name
    · have hfound : answersTo g name = true := answersTo_iff.2 (.inl hname)
      exact ⟨g, .head _, by simp [hfound], by simp [hname]⟩
    by_cases hrival : g.Rivals name
    · have hfound : answersTo g name = true := answersTo_iff.2 (.inr hrival)
      exact ⟨g, .head _, by simp [hfound], by simp [hname, hrival]⟩
    · have hpassed : answersTo g name = false := by
        rw [← Bool.not_eq_true, answersTo_iff]
        exact fun h => h.elim hname hrival
      obtain ⟨f, hf, hfind, hiff⟩ := ih (by simpa [hname] using h)
      exact ⟨f, .tail _ hf, by simpa [hpassed] using hfind, by simpa [hname, hrival] using hiff⟩

end Scene

namespace Problem

/-- A name that some file has always stands for a file: for one that has it if and only if no file
before the first such one answers to it by its stem or as a path. This is the file that imports from
that source go to, whose module code is the entry of that name, and that a worker of that name runs. -/
theorem fileNamed?_iff_unrivalled (p : Problem) (name : String)
    (h : ∃ f ∈ p.scene.files, f.name = name) :
    ∃ f ∈ p.scene.files, p.scene.fileNamed? name = some f.id ∧
      (f.name = name ↔ p.scene.Unrivalled name) ∧
      (p.scene.file f.id = .ok f →
        (∀ (g : SourceFile) (x : String) (wanted : Import), g.imports.get? x = some wanted →
          wanted.source = name →
          (∀ v, f.exports.get? wanted.name = some v →
            p.scene.imported g x = .ok (.bound f.moduleMethod v)) ∧
          (f.exports.get? wanted.name = none →
            p.scene.imported g x = .ok (.notExported f.name wanted.name))) ∧
        (p.scene.methodBySignature? name = none →
          p.scene.methodNamed? name = .ok (some f.moduleMethod)) ∧
        ∀ site c s t, Model.constantArgument? p site s = .ok (some name) t →
          Model.Worker.start p site c s = Model.Worker.launch p site c f.id t) := by
  obtain ⟨f, hmem, hfind, hiff⟩ := Scene.find?_answersTo (l := p.scene.files.toList) (by simpa using h)
  have hnamed : p.scene.fileNamed? name = some f.id := by rw [Scene.fileNamed?, hfind, Option.map_some]
  refine ⟨f, by simpa using hmem, hnamed, hiff, fun hfile => ⟨fun g x wanted himport hsource => ?_,
    fun hsignature => ?_, fun site c s t hname => ?_⟩⟩
  · subst hsource
    constructor
    · intro v hv
      simp only [Scene.imported, himport, hnamed, hfile, Bind.bind, Except.bind, hv]
      rfl
    · intro hnone
      simp only [Scene.imported, himport, hnamed, hfile, Bind.bind, Except.bind, hnone]
      rfl
  · simp only [Scene.methodNamed?, hsignature, hnamed, hfile, Bind.bind, Except.bind]
    rfl
  · rw [Model.Worker.start, bind_run_of_ok hname]
    simp only [hnamed]

end Problem

/-- A scene of files with nothing but empty module code. -/
def Scene.ofFiles (names : List String) : Scene :=
  match names.forM (m := Drafting) (fun name => discard (Draft.addFile name)) {} with
  | .ok _ d | .error _ d => d.scene

/-- The path `lib/util.ets` is no rival where it comes later. -/
theorem Problem.fileNamed?_iff_unrivalled_util :
    let p : Problem := ⟨.ofFiles ["core.ets", "util.ets", "lib/util.ets"], {}⟩
    (∃ f ∈ p.scene.files, f.name = "util.ets") ∧ p.scene.Unrivalled "util.ets" ∧
      ∃ f ∈ p.scene.files, p.scene.fileNamed? "util.ets" = some f.id ∧ f.name = "util.ets" := by
  intro p
  have hname : ∃ f ∈ p.scene.files, f.name = "util.ets" :=
    ⟨_, Array.mem_of_getElem? (i := 1) rfl, rfl⟩
  have hfirst : p.scene.Unrivalled "util.ets" := by
    unfold Scene.Unrivalled SourceFile.Rivals
    decide +kernel
  obtain ⟨f, hmem, hfound, hiff, -⟩ := fileNamed?_iff_unrivalled p "util.ets" hname
  exact ⟨hname, hfirst, f, hmem, hfound, hiff.2 hfirst⟩

/-- A path that ends with the wanted name is preferred to the file of that name if it comes first. -/
theorem Scene.fileNamed?_prefers_path :
    let s := ofFiles ["lib/util.ets", "util.ets"]
    s.files.toList.map (·.name) = ["lib/util.ets", "util.ets"] ∧
      s.fileNamed? "util.ets" = some ⟨0⟩ ∧
      (s.methodNamed? "util.ets").toOption = some (s.files[0]?.map (·.moduleMethod)) := by
  decide +kernel

end PointsTo
