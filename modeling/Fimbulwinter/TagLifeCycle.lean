import Fimbulwinter.LoaderFrames

/-! # Tags of independent loads

A tag is put on a file by an independent load. No message takes a tag off again, so
an unload leaves the tag on its file, and the tag cannot be used again. -/
namespace Fimbulwinter.Loader

variable (hash : Name → Asset)

/-- The number of independent loads that own a file. -/
def State.globalCount (s : State) (file : Asset) : ℕ :=
  match (s.loads.find file).bind Load.entry with
  | none => 0
  | some x => x.owners.count global

/-- An unload takes the tag off its file together with one independent load; an unload of a
tag that is not held changes nothing. -/
structure Unloads (s : State) (tag : Token) (s' : State) : Prop where
  released : s'.tags.find tag = none
  lost : ∀ file, s.tags.find tag = some file → s'.globalCount file + 1 = s.globalCount file
  unheld : s.tags.find tag = none → s' = s

/-- A property of every unload in a run of messages. -/
def everyUnload (property : State → Token → Prop) : State → List Message → Prop
  | _, [] => True
  | s, message :: messages =>
    (∀ tag, message = .unloadIndependent tag → property s tag) ∧
      ∀ s', processMessage hash s message = .ok s' → everyUnload property s' messages

theorem everyUnload_congr {p q : State → Token → Prop} (hpq : ∀ s tag, p s tag ↔ q s tag)
    (s : State) (messages : List Message) :
    everyUnload hash p s messages ↔ everyUnload hash q s messages := by
  induction messages generalizing s with
  | nil => exact Iff.rfl
  | cons message messages ih =>
    exact and_congr (forall_congr' fun tag => imp_congr_right fun _ => hpq s tag)
      (forall_congr' fun s' => imp_congr_right fun _ => ih s')

/-- An unload keeps the table of tags. -/
theorem processUnloadIndependent_tags {s s' : State} {tag : Token}
    (h : processUnloadIndependent hash s tag = .ok s') : s'.tags = s.tags :=
  ((processUnloadIndependent_extends hash s tag).ok h).tags

theorem processUnloadIndependent_of_not_held {s : State} {tag : Token}
    (h : s.tags.find tag = none) : processUnloadIndependent hash s tag = .ok s := by
  simp only [processUnloadIndependent, h]

/-- An unload does what it should exactly when the tag is not held. -/
theorem unloads_iff_not_held (s : State) (tag : Token) :
    (∃ s', processMessage hash s (.unloadIndependent tag) = .ok s' ∧ Unloads s tag s') ↔
      s.tags.find tag = none := by
  constructor
  · rintro ⟨s', hs, hunloads⟩
    rw [← processUnloadIndependent_tags hash hs]
    exact hunloads.released
  · intro h
    refine ⟨s, processUnloadIndependent_of_not_held hash h, h, fun file hfile => ?_, fun _ => rfl⟩
    rw [h] at hfile
    exact absurd hfile (Option.some_ne_none file).symm

/-- In every run of messages, every unload does what it should if and only if no tag that is
held is ever unloaded. -/
theorem tagLifeCycle_iff (s : State) (messages : List Message) :
    everyUnload hash (fun s tag =>
        ∃ s', processMessage hash s (.unloadIndependent tag) = .ok s' ∧ Unloads s tag s')
      s messages ↔
    everyUnload hash (fun s tag => s.tags.find tag = none) s messages :=
  everyUnload_congr hash (unloads_iff_not_held hash) s messages

/-- Process messages one after another. -/
def processMessages (s : State) : List Message → Except Fault State
  | [] => .ok s
  | message :: messages =>
    match processMessage hash s message with
    | .error e => .error e
    | .ok s => processMessages s messages

theorem neZero_one : NeZero 1 := ⟨Nat.one_ne_zero⟩

theorem neZero_five : NeZero 5 := ⟨by decide⟩

theorem neZero_seven : NeZero 7 := ⟨by decide⟩

attribute [local instance] neZero_one neZero_five neZero_seven

/-- A library with one file, and a file type. -/
def oneFileLibrary : List Message :=
  [.registerFiletype 7 0 0, .registerLibrary 1, .fileScan ⟨1, ['a'], []⟩]

/-- A load of the file with tag 5. -/
def loadOneFile : Message := .loadIndependent ⟨5, spell ['a'], 7, 0, 0, 0⟩

/-- The tag stays on the file after its unload, and a second load with the tag does not load
the file. -/
theorem tag_not_released :
    (∃ s, processMessages spell State.initial (oneFileLibrary ++ [loadOneFile]) = .ok s ∧
      s.globalCount (spell ['a']) = 1) ∧
    (∃ s, processMessages spell State.initial
        (oneFileLibrary ++ [loadOneFile, .unloadIndependent 5]) = .ok s ∧
      s.tags.find 5 = some (spell ['a'])) ∧
    (∃ s, processMessages spell State.initial
        (oneFileLibrary ++ [loadOneFile, .unloadIndependent 5, loadOneFile]) = .ok s ∧
      s.loads.find (spell ['a']) = none) :=
  ⟨⟨_, rfl, rfl⟩, ⟨_, rfl, rfl⟩, ⟨_, rfl, rfl⟩⟩

end Fimbulwinter.Loader
