import Fimbulwinter.ObjectFrames
import Mathlib.Algebra.BigOperators.Group.List.Basic
import Mathlib.Algebra.Group.Nat.Defs

/-! # Playbacks of armatures

`Playback::update` with its recursion over the joints. Matrices are elements of a monoid, and the
movements of positions and orientations are left out. -/
namespace Fimbulwinter.SkeletonPlayback

inductive Fault
  /-- An index is outside of its array. -/
  | outside
  | divisionByZero
  /-- A sum that is no `int`. -/
  | overflow
  | outOfFuel
  deriving DecidableEq, Repr

/-- A joint with its number of children, a `uint16_t`. -/
structure Joint where
  nchildren : ℕ
  fits : nchildren < 2 ^ 16

structure Armature where
  joints : List Joint

/-- The matrices that are made of the parts of a channel. -/
structure Channel (M : Type*) where
  translation : M
  rotation : M
  scale : M

structure Frame (M : Type*) where
  channels : List (Channel M)

/-- An action with its length, an `int32_t` that is not negative. -/
structure Action (M : Type*) where
  length : ℕ
  fits : length < 2 ^ 31
  frames : List (Frame M)

/-- The matrices, and the joints that have been evaluated in the update so far. -/
structure Pose (M : Type*) where
  matrices : List M
  visited : List ℕ

structure Playback (M : Type*) where
  armature : Armature
  action : Option (Action M)
  repeats : Bool
  finished : Bool
  framei : ℕ
  pose : Pose M

section Definitions

variable {M : Type*} [Monoid M]

def Channel.pose (c : Channel M) : M := c.translation * c.rotation * c.scale

/-- Go through children, each from the index that the one before returned. -/
def forChildren (visit : ℕ → Pose M → Except Fault (ℕ × Pose M)) :
    ℕ → ℕ → Pose M → Except Fault (ℕ × Pose M)
  | 0, childi, p => .ok (childi, p)
  | n + 1, childi, p =>
    match visit childi p with
    | .ok (childi, p) => forChildren visit n childi p
    | .error e => .error e

/-- `parent_matrix` refers to a matrix of the playback, which is read when a child is visited. -/
def withParent (mei : ℕ) (visit : M → ℕ → Pose M → Except Fault (ℕ × Pose M)) (childi : ℕ)
    (p : Pose M) : Except Fault (ℕ × Pose M) :=
  match p.matrices[mei]? with
  | some parentMatrix => visit parentMatrix childi p
  | none => .error .outside

/-- The matrix of a joint is set. -/
def Pose.evaluate (p : Pose M) (mei : ℕ) (matrix : M) : Pose M where
  matrices := p.matrices.set mei matrix
  visited := p.visited ++ [mei]

/-- `update` of a joint -/
def updateJoint (armature : Armature) (action : Action M) (framei : ℕ) :
    ℕ → M → ℕ → Pose M → Except Fault (ℕ × Pose M)
  | 0, _, _, _ => .error .outOfFuel
  | fuel + 1, parentMatrix, mei, p =>
    match action.frames[framei]?.bind (·.channels[mei]?), armature.joints[mei]? with
    | some channel, some joint =>
      if mei < p.matrices.length then
        if mei + 1 < 2 ^ 31 then
          forChildren (withParent mei (updateJoint armature action framei fuel)) joint.nchildren
            (mei + 1) (p.evaluate mei (parentMatrix * channel.pose))
        else .error .overflow
      else .error .outside
    | _, _ => .error .outside

/-- The loop over the roots. -/
def updateRoots (armature : Armature) (action : Action M) (framei : ℕ) :
    ℕ → ℕ → Pose M → Except Fault (Pose M)
  | 0, _, _ => .error .outOfFuel
  | fuel + 1, rooti, p =>
    if (rooti : ℤ) < Mixer.castInt armature.joints.length then
      match updateJoint armature action framei fuel 1 rooti p with
      | .ok (rooti, p) => updateRoots armature action framei fuel rooti p
      | .error e => .error e
    else .ok p

/-- The frame of the next update, and whether the playback is finished then. -/
def Playback.nextFrame (x : Playback M) (action : Action M) : Except Fault (Playback M) :=
  if x.framei + 1 < action.length then .ok { x with framei := x.framei + 1 }
  else if action.length = 0 then .error .divisionByZero
  else .ok { x with
    finished := x.finished || !x.repeats
    framei := (x.framei + 1) % action.length }

/-- `Playback::update` -/
def Playback.update (fuel : ℕ) (x : Playback M) : Except Fault (Playback M) :=
  match x.action with
  | none => .ok x
  | some action =>
    match x.nextFrame action with
    | .error e => .error e
    | .ok x =>
      match updateRoots x.armature action x.framei fuel 0 { x.pose with visited := [] } with
      | .ok p => .ok { x with pose := p }
      | .error e => .error e

/-- A playback of an action; without memory for them there are no matrices. -/
def Playback.start (armature : Armature) (action : Action M) (repeats : Bool) (contents : ℕ → M)
    (granted : Bool) : Playback M where
  armature := armature
  action := some action
  repeats := repeats
  finished := false
  framei := 0
  pose := ⟨if granted then (List.range armature.joints.length).map contents else [], []⟩

end Definitions

/-! ## Forests -/

/-- A forest: the trees below its first root, and the other trees. -/
inductive Forest
  | nil
  | cons (children siblings : Forest)

namespace Forest

def roots : Forest → ℕ
  | nil => 0
  | cons _ siblings => siblings.roots + 1

def size : Forest → ℕ
  | nil => 0
  | cons children siblings => children.size + siblings.size + 1

/-- How many children the nodes have, in preorder. -/
def counts : Forest → List ℕ
  | nil => []
  | cons children siblings => children.roots :: (children.counts ++ siblings.counts)

/-- The ways to the nodes from their roots, in preorder, with the numbers of the nodes. -/
def paths (above : List ℕ) : ℕ → Forest → List (List ℕ)
  | _, nil => []
  | start, cons children siblings =>
    (above ++ [start]) :: (paths (above ++ [start]) (start + 1) children ++
      paths above (start + 1 + children.size) siblings)

/-- A node is the parent of another. -/
def IsParent (forest : Forest) (i j : ℕ) : Prop :=
  ∃ above, (forest.paths [] 0)[j]? = some (above ++ [i, j])

end Forest

/-- The product of the matrices along a way. -/
def Frame.product {M : Type*} [Monoid M] (frame : Frame M) (path : List ℕ) : M :=
  (path.map fun i => (frame.channels[i]?.map Channel.pose).getD 1).prod

section Specification

variable {M : Type*} [Monoid M]

/-- An update terminates. -/
def Updates (x y : Playback M) : Prop := ∃ bound, ∀ fuel ≥ bound, x.update fuel = .ok y

/-- What should hold after an update. -/
structure Evaluated (forest : Forest) (action : Action M) (x : Playback M) : Prop where
  within : x.framei < action.length
  once : x.pose.visited = List.range forest.size
  afterParent : ∀ i j k, forest.IsParent i j → x.pose.visited[k]? = some j →
    i ∈ x.pose.visited.take k
  product : ∃ frame, action.frames[x.framei]? = some frame ∧
    x.pose.matrices = (forest.paths [] 0).map frame.product

/-- An action has enough frames, each with a channel for every joint. -/
structure Covers (armature : Armature) (action : Action M) : Prop where
  pos : 0 < action.length
  frames : action.length ≤ action.frames.length
  channels : ∀ frame ∈ action.frames, armature.joints.length ≤ frame.channels.length

/-- Every update of a playback evaluates its joints. -/
def Plays (forest : Forest) (action : Action M) (start : Playback M) : Prop :=
  ∀ x, Relation.ReflTransGen Updates start x → ∃ y, Updates x y ∧ Evaluated forest action y

end Specification

/-! ## Ways -/

namespace Forest

variable {forest children siblings : Forest} {above path : List ℕ} {start j : ℕ}

@[simp] theorem length_counts (forest : Forest) : forest.counts.length = forest.size := by
  induction forest with
  | nil => rfl
  | cons children siblings hchildren hsiblings =>
    rw [counts, List.length_cons, List.length_append, hchildren, hsiblings, size]

@[simp] theorem length_paths (above : List ℕ) (start : ℕ) (forest : Forest) :
    (forest.paths above start).length = forest.size := by
  induction forest generalizing above start with
  | nil => rfl
  | cons children siblings hchildren hsiblings =>
    rw [paths, List.length_cons, List.length_append, hchildren, hsiblings, size]

/-- Ways lead to greater numbers. -/
theorem pairwise_paths (habove : above.Pairwise (· < ·)) (hstart : ∀ i ∈ above, i < start) :
    ∀ path ∈ forest.paths above start, path.Pairwise (· < ·) := by
  induction forest generalizing above start with
  | nil => exact fun path h => absurd h List.not_mem_nil
  | cons children siblings hchildren hsiblings =>
    have hjoint : (above ++ [start]).Pairwise (· < ·) := by
      refine List.pairwise_append.mpr ⟨habove, List.pairwise_singleton _ _, fun i hi k hk => ?_⟩
      rw [List.mem_singleton.mp hk]
      exact hstart i hi
    intro path hpath
    rw [paths, List.mem_cons, List.mem_append] at hpath
    obtain rfl | hpath | hpath := hpath
    · exact hjoint
    · refine hchildren hjoint (fun i hi => ?_) path hpath
      obtain hi | hi := List.mem_append.mp hi
      · exact Nat.lt_succ_of_lt (hstart i hi)
      · rw [List.mem_singleton.mp hi]
        exact Nat.lt_succ_self start
    · refine hsiblings habove (fun i hi => ?_) path hpath
      have hlt := hstart i hi
      omega

/-- The way to a node ends there. -/
theorem getLast?_paths (h : (forest.paths above start)[j]? = some path) :
    path.getLast? = some (start + j) := by
  induction forest generalizing above start j with
  | nil => cases h
  | cons children siblings hchildren hsiblings =>
    rw [paths] at h
    cases j with
    | zero =>
      obtain rfl : above ++ [start] = path := Option.some.inj h
      exact List.getLast?_concat
    | succ j =>
      rw [List.getElem?_cons_succ] at h
      by_cases hj : j < children.size
      · rw [List.getElem?_append_left (by rwa [length_paths])] at h
        rw [hchildren h]
        congr 1
        omega
      · rw [List.getElem?_append_right (by rw [length_paths]; omega), length_paths] at h
        rw [hsiblings h]
        congr 1
        omega

/-- Parents come before their children. -/
theorem IsParent.lt {i : ℕ} (h : forest.IsParent i j) : i < j := by
  obtain ⟨above, h⟩ := h
  have hpairwise : (above ++ [i, j]).Pairwise (· < ·) := pairwise_paths List.Pairwise.nil
    (fun i hi => absurd hi List.not_mem_nil) _ (List.mem_of_getElem? h)
  rw [List.pairwise_append] at hpairwise
  exact List.rel_of_pairwise_cons hpairwise.2.1 (List.mem_singleton_self j)

end Forest

theorem product_concat {M : Type*} [Monoid M] {frame : Frame M} {channel : Channel M} {i : ℕ}
    (h : frame.channels[i]? = some channel) (above : List ℕ) :
    frame.product (above ++ [i]) = frame.product above * channel.pose := by
  rw [Frame.product, List.map_append, List.prod_append, List.map_singleton, List.prod_singleton, h]
  rfl

/-! ## Evaluation -/

section Evaluation

variable {M : Type*} [Monoid M] {armature : Armature} {action : Action M} {framei fuel mei start : ℕ}
  {frame : Frame M} {forest : Forest} {p p' : Pose M} {done rest : List M} {visited above : List ℕ}

/-- What the evaluation of a frame relies on. -/
structure Evaluable (armature : Armature) (action : Action M) (framei : ℕ) (frame : Frame M) :
    Prop where
  found : action.frames[framei]? = some frame
  channels : armature.joints.length ≤ frame.channels.length
  count : armature.joints.length < 2 ^ 31

/-- The joints from an index on begin with those of a forest. -/
def Follows (armature : Armature) (forest : Forest) (start : ℕ) : Prop :=
  forest.counts <+: (armature.joints.map Joint.nchildren).drop start

theorem Follows.cons {children siblings : Forest} (h : Follows armature (.cons children siblings) start) :
    (armature.joints[start]?).map Joint.nchildren = some children.roots ∧
      Follows armature children (start + 1) ∧
        Follows armature siblings (start + 1 + children.size) := by
  obtain ⟨behind, h⟩ := h
  rw [Forest.counts, List.cons_append, List.append_assoc] at h
  have hrest : (armature.joints.map Joint.nchildren).drop (start + 1) =
      children.counts ++ (siblings.counts ++ behind) := by
    rw [← List.drop_drop, ← h, List.drop_succ_cons, List.drop_zero]
  refine ⟨?_, ⟨_, hrest.symm⟩, ⟨behind, ?_⟩⟩
  · rw [← List.getElem?_map, ← Nat.add_zero start, ← List.getElem?_drop, ← h]
    rfl
  · rw [← List.drop_drop, hrest, List.drop_left' (Forest.length_counts children)]

/-- A joint is evaluated, and then its children are. -/
theorem updateJoint_eq (heval : Evaluable armature action framei frame) {joint : Joint}
    (hjoint : armature.joints[start]? = some joint) (hdone : done.length = start) (m : M)
    (rest : List M) :
    updateJoint armature action framei (fuel + 1) (frame.product above) start
        ⟨done ++ m :: rest, visited⟩ =
      forChildren (withParent start (updateJoint armature action framei fuel)) joint.nchildren
        (start + 1) ⟨(done ++ [frame.product (above ++ [start])]) ++ rest, visited ++ [start]⟩ := by
  have hlt : start < armature.joints.length := (List.getElem?_eq_some_iff.mp hjoint).1
  have hcount := heval.count
  have hchannel := List.getElem?_eq_getElem (Nat.lt_of_lt_of_le hlt heval.channels)
  rw [updateJoint, heval.found, hjoint, Option.bind_some, hchannel]
  dsimp only
  rw [if_pos (by rw [List.length_append, List.length_cons]; omega), if_pos (by omega),
    ← product_concat hchannel, Pose.evaluate, ← hdone, List.set_append_right _ _ (Nat.le_refl _),
    Nat.sub_self, List.set_cons_zero, List.append_assoc]
  rfl

/-- The trees of a forest are evaluated one after another, as children of a joint. -/
def Trees (armature : Armature) (action : Action M) (framei : ℕ) (frame : Frame M)
    (forest : Forest) : Prop :=
  ∀ {start mei fuel : ℕ} {above : List ℕ} {done : List M} (rest : List M) (visited : List ℕ),
    Follows armature forest start → done.length = start →
    done[mei]? = some (frame.product above) → forest.size ≤ rest.length → forest.size ≤ fuel →
    forChildren (withParent mei (updateJoint armature action framei fuel)) forest.roots start
        ⟨done ++ rest, visited⟩ =
      .ok (start + forest.size,
        ⟨done ++ (forest.paths above start).map frame.product ++ rest.drop forest.size,
          visited ++ List.range' start forest.size⟩)

/-- The tree of a joint is evaluated if the trees of its children are. -/
theorem updateJoint_tree {children siblings : Forest}
    (heval : Evaluable armature action framei frame)
    (htrees : Trees armature action framei frame children)
    (hfollows : Follows armature (.cons children siblings) start) (hdone : done.length = start)
    (rest : List M) (visited : List ℕ) (hrest : children.size < rest.length)
    (hfuel : children.size ≤ fuel) :
    updateJoint armature action framei (fuel + 1) (frame.product above) start
        ⟨done ++ rest, visited⟩ =
      .ok (start + 1 + children.size,
        ⟨done ++ [frame.product (above ++ [start])] ++
            (children.paths (above ++ [start]) (start + 1)).map frame.product ++
              rest.drop (children.size + 1),
          visited ++ [start] ++ List.range' (start + 1) children.size⟩) := by
  obtain ⟨hjoint, hchildren, -⟩ := hfollows.cons
  obtain ⟨joint, hjoint, hroots⟩ := Option.map_eq_some_iff.mp hjoint
  have hne : rest ≠ [] := List.ne_nil_of_length_pos (Nat.zero_lt_of_lt hrest)
  obtain ⟨m, rest, rfl⟩ := List.exists_cons_of_ne_nil hne
  rw [List.length_cons] at hrest
  have hlength : (done ++ [frame.product (above ++ [start])]).length = start + 1 := by
    rw [List.length_append, hdone, List.length_singleton]
  have hjust : (done ++ [frame.product (above ++ [start])])[start]? =
      some (frame.product (above ++ [start])) := by
    rw [← hdone, List.getElem?_concat_length]
  rw [updateJoint_eq heval hjoint hdone, hroots, List.drop_succ_cons]
  exact htrees rest (visited ++ [start]) hchildren hlength hjust (by omega) hfuel

theorem trees (heval : Evaluable armature action framei frame) (forest : Forest) :
    Trees armature action framei frame forest := by
  induction forest with
  | nil =>
    intro start mei fuel above done rest visited _ _ _ _ _
    rw [Forest.roots, forChildren, Forest.size, Forest.paths, List.range'_zero, List.append_nil,
      List.map_nil, List.append_nil]
    rfl
  | cons children siblings hchildren hsiblings =>
    intro start mei fuel above done rest visited hfollows hdone hparent hrest hfuel
    rw [Forest.size] at hrest hfuel
    obtain ⟨fuel, rfl⟩ : ∃ fuel', fuel = fuel' + 1 := ⟨fuel - 1, by omega⟩
    have hmei : mei < done.length := (List.getElem?_eq_some_iff.mp hparent).1
    rw [Forest.roots, forChildren, withParent, List.getElem?_append_left hmei, hparent]
    dsimp only
    rw [updateJoint_tree heval hchildren hfollows hdone rest visited (by omega) (by omega)]
    dsimp only
    rw [hsiblings (rest.drop (children.size + 1)) _ hfollows.cons.2.2 (by
      rw [List.length_append, List.length_append, hdone, List.length_singleton, List.length_map,
        Forest.length_paths]) (by
      rw [List.append_assoc, List.getElem?_append_left hmei, hparent]) (by
      rw [List.length_drop]; omega) (by omega)]
    have hsum : start + 1 + children.size + siblings.size =
        start + (children.size + siblings.size + 1) := by omega
    have hdrop : children.size + 1 + siblings.size = children.size + siblings.size + 1 := by omega
    rw [Forest.paths, Forest.size, hsum, List.range'_succ, ← List.range'_append_1]
    simp only [List.map_cons, List.map_append, List.append_assoc, List.cons_append,
      List.nil_append, List.drop_drop, hdrop]

theorem castInt_eq {n : ℕ} (h : n < 2 ^ 31) : Mixer.castInt n = n :=
  Int.bmod_eq_of_le (by omega) (by omega)

/-- The loop over the roots evaluates all that is left. -/
theorem updateRoots_forest (done rest : List M) (visited : List ℕ)
    (heval : Evaluable armature action framei frame)
    (hfollows : Follows armature forest start) (hdone : done.length = start)
    (hend : start + forest.size = armature.joints.length) (hrest : forest.size = rest.length)
    (hfuel : forest.size < fuel) :
    updateRoots armature action framei fuel start ⟨done ++ rest, visited⟩ =
      .ok ⟨done ++ (forest.paths [] start).map frame.product,
        visited ++ List.range' start forest.size⟩ := by
  induction forest generalizing start done rest visited fuel with
  | nil =>
    obtain ⟨fuel, rfl⟩ : ∃ fuel', fuel = fuel' + 1 := ⟨fuel - 1, by omega⟩
    obtain rfl : rest = [] := List.eq_nil_of_length_eq_zero hrest.symm
    rw [updateRoots, castInt_eq heval.count, ← hend, Forest.size, if_neg (by omega), Forest.paths,
      List.range'_zero, List.map_nil, List.append_nil, List.append_nil]
  | cons children siblings hchildren hsiblings =>
    rw [Forest.size] at hrest hfuel hend
    obtain ⟨fuel, rfl⟩ : ∃ fuel', fuel = fuel' + 2 := ⟨fuel - 2, by omega⟩
    rw [updateRoots, castInt_eq heval.count, if_pos (by omega),
      show (1 : M) = frame.product [] from rfl,
      updateJoint_tree heval (trees heval children) hfollows hdone rest visited (by omega) (by omega)]
    dsimp only
    rw [hsiblings _ (rest.drop (children.size + 1)) _ hfollows.cons.2.2 (by
      rw [List.length_append, List.length_append, hdone, List.length_singleton, List.length_map,
        Forest.length_paths]) (by omega) (by
      rw [List.length_drop]; omega) (by omega)]
    rw [Forest.paths, Forest.size, List.range'_succ, ← List.range'_append_1]
    simp only [List.map_cons, List.map_append, List.append_assoc, List.cons_append, List.nil_append]

/-! ## What evaluations keep -/

/-- The array of matrices keeps its length, and the joints that are evaluated have a successor. -/
def Keeps (p p' : Pose M) : Prop :=
  p'.matrices.length = p.matrices.length ∧ ∀ i ∈ p'.visited, i ∈ p.visited ∨ i + 1 < 2 ^ 31

omit [Monoid M] in
theorem Keeps.trans {p'' : Pose M} (h : Keeps p p') (h' : Keeps p' p'') : Keeps p p'' := by
  refine ⟨h'.1.trans h.1, fun i hi => ?_⟩
  obtain hi | hi := h'.2 i hi
  · exact h.2 i hi
  · exact .inr hi

omit [Monoid M] in
theorem keeps_forChildren {visit : ℕ → Pose M → Except Fault (ℕ × Pose M)}
    (hvisit : ∀ {childi childi' : ℕ} {p p' : Pose M}, visit childi p = .ok (childi', p') → Keeps p p')
    {n childi childi' : ℕ} (h : forChildren visit n childi p = .ok (childi', p')) : Keeps p p' := by
  induction n generalizing childi p with
  | zero =>
    cases h
    exact ⟨rfl, fun i hi => .inl hi⟩
  | succ n ih =>
    rw [forChildren] at h
    cases hfirst : visit childi p with
    | error e =>
      rw [hfirst] at h
      cases h
    | ok r =>
      rw [hfirst] at h
      exact (hvisit hfirst).trans (ih h)

theorem keeps_updateJoint {parentMatrix : M} {mei childi : ℕ}
    (h : updateJoint armature action framei fuel parentMatrix mei p = .ok (childi, p')) :
    Keeps p p' := by
  induction fuel generalizing parentMatrix mei childi p p' with
  | zero => cases h
  | succ fuel ih =>
    rw [updateJoint] at h
    split at h
    · split_ifs at h with hmatrix hsum
      have hevaluate : ∀ matrix : M, Keeps p (p.evaluate mei matrix) := fun matrix => by
        refine ⟨List.length_set, fun i hi => ?_⟩
        obtain hi | hi := List.mem_append.mp hi
        · exact .inl hi
        · rw [List.mem_singleton.mp hi]
          exact .inr hsum
      refine (hevaluate _).trans (keeps_forChildren (fun {childi childi' p p'} hvisit => ?_) h)
      rw [withParent] at hvisit
      split at hvisit
      · exact ih hvisit
      · cases hvisit
    · cases h

theorem keeps_updateRoots {rooti : ℕ}
    (h : updateRoots armature action framei fuel rooti p = .ok p') : Keeps p p' := by
  induction fuel generalizing rooti p with
  | zero => cases h
  | succ fuel ih =>
    rw [updateRoots] at h
    split_ifs at h with hroot
    · cases hfirst : updateJoint armature action framei fuel 1 rooti p with
      | error e =>
        rw [hfirst] at h
        cases h
      | ok r =>
        rw [hfirst] at h
        exact (keeps_updateJoint hfirst).trans (ih h)
    · cases h
      exact ⟨rfl, fun i hi => .inl hi⟩

end Evaluation

/-! ## Playbacks -/

section Runs

variable {M : Type*} [Monoid M] {armature : Armature} {action : Action M} {forest : Forest}
  {x y : Playback M}

omit [Monoid M] in
theorem nextFrame_ok (x : Playback M) (hpos : 0 < action.length) :
    ∃ framei finished, framei < action.length ∧
      x.nextFrame action = .ok { x with framei := framei, finished := finished } := by
  rw [Playback.nextFrame]
  by_cases hlt : x.framei + 1 < action.length
  · exact ⟨x.framei + 1, x.finished, hlt, if_pos hlt⟩
  · refine ⟨(x.framei + 1) % action.length, x.finished || !x.repeats, Nat.mod_lt _ hpos, ?_⟩
    rw [if_neg hlt, if_neg (Nat.ne_of_gt hpos)]

/-- A playback of an action that has a matrix for every joint. -/
structure Ready (armature : Armature) (action : Action M) (x : Playback M) : Prop where
  joints : x.armature = armature
  plays : x.action = some action
  matrices : x.pose.matrices.length = armature.joints.length

theorem size_eq (hcounts : forest.counts = armature.joints.map Joint.nchildren) :
    forest.size = armature.joints.length := by
  rw [← Forest.length_counts, hcounts, List.length_map]

/-- An update from a playback that is ready evaluates all joints, and it stays ready. -/
theorem Ready.exists_updates (hready : Ready armature action x)
    (hcounts : forest.counts = armature.joints.map Joint.nchildren) (hcovers : Covers armature action)
    (hcount : armature.joints.length < 2 ^ 31) :
    ∃ y, Updates x y ∧ Evaluated forest action y ∧ Ready armature action y := by
  have hsize := size_eq hcounts
  obtain ⟨framei, finished, hframei, hnext⟩ := nextFrame_ok x hcovers.pos
  obtain ⟨frame, hfound⟩ : ∃ frame, action.frames[framei]? = some frame :=
    ⟨_, List.getElem?_eq_getElem (Nat.lt_of_lt_of_le hframei hcovers.frames)⟩
  have heval : Evaluable armature action framei frame :=
    ⟨hfound, hcovers.channels _ (List.mem_of_getElem? hfound), hcount⟩
  have hfollows : Follows armature forest 0 := by
    rw [Follows, List.drop_zero, hcounts]
  have hroots : ∀ fuel ≥ forest.size + 1,
      updateRoots armature action framei fuel 0 { x.pose with visited := [] } =
        .ok ⟨(forest.paths [] 0).map frame.product, List.range forest.size⟩ :=
    fun fuel hfuel => by
      have h := updateRoots_forest [] x.pose.matrices [] heval hfollows rfl
        (by rw [Nat.zero_add, hsize]) (by rw [hsize, hready.matrices]) hfuel
      rw [List.nil_append, List.nil_append, List.nil_append, ← List.range_eq_range'] at h
      exact h
  refine ⟨{ x with
      framei := framei
      finished := finished
      pose := ⟨(forest.paths [] 0).map frame.product, List.range forest.size⟩ },
    ⟨forest.size + 1, fun fuel hfuel => ?_⟩, ⟨hframei, rfl, fun i j k hparent hvisited => ?_,
      ⟨frame, hfound, rfl⟩⟩, ⟨hready.joints, hready.plays, ?_⟩⟩
  · rw [Playback.update, hready.plays]
    dsimp only
    rw [hnext]
    dsimp only
    rw [hready.joints, hroots fuel hfuel, hready.plays]
  · obtain ⟨hk, hvisited⟩ := List.getElem?_eq_some_iff.mp hvisited
    obtain rfl : k = j := by rwa [List.getElem_range] at hvisited
    rw [List.length_range] at hk
    rw [List.take_range, Nat.min_eq_left (Nat.le_of_lt hk)]
    exact List.mem_range.mpr hparent.lt
  · dsimp only
    rw [List.length_map, Forest.length_paths, hsize]

theorem Updates.unique {z : Playback M} (hy : Updates x y) (hz : Updates x z) : y = z := by
  obtain ⟨b, hy⟩ := hy
  obtain ⟨b', hz⟩ := hz
  have heq := (hy (max b b') (Nat.le_max_left ..)).symm.trans (hz (max b b') (Nat.le_max_right ..))
  cases heq
  rfl

theorem plays_of_ready (hready : Ready armature action x)
    (hcounts : forest.counts = armature.joints.map Joint.nchildren) (hcovers : Covers armature action)
    (hcount : armature.joints.length < 2 ^ 31) : Plays forest action x := by
  intro y hreached
  have hready : Ready armature action y := by
    induction hreached with
    | refl => exact hready
    | tail _ hupdates ih =>
      obtain ⟨z, hz, -, hready⟩ := ih.exists_updates hcounts hcovers hcount
      rwa [hupdates.unique hz]
  obtain ⟨z, hz, hevaluated, -⟩ := hready.exists_updates hcounts hcovers hcount
  exact ⟨z, hz, hevaluated⟩

/-- An update that evaluates all joints has matrices for them, and their number is an `int`. -/
theorem bounds_of_evaluated (haction : x.action = some action) (hupdates : Updates x y)
    (hevaluated : Evaluated forest action y) :
    forest.size < 2 ^ 31 ∧ x.pose.matrices.length = forest.size := by
  obtain ⟨bound, hupdates⟩ := hupdates
  have hupdate := hupdates bound (Nat.le_refl bound)
  rw [Playback.update, haction] at hupdate
  dsimp only at hupdate
  split at hupdate
  · cases hupdate
  · rename_i x' hnext
    split at hupdate
    · rename_i p hroots
      cases hupdate
      have hpose : x'.pose = x.pose := by
        rw [Playback.nextFrame] at hnext
        split_ifs at hnext
        · cases hnext
          rfl
        · cases hnext
          rfl
      have hkeeps := keeps_updateRoots hroots
      obtain ⟨frame, -, hmatrices⟩ := hevaluated.product
      have honce := hevaluated.once
      dsimp only at hmatrices honce
      refine ⟨?_, ?_⟩
      · by_contra hge
        have hmem : 2 ^ 31 - 1 ∈ p.visited := by
          rw [honce, List.mem_range]
          omega
        obtain h | h := hkeeps.2 _ hmem
        · cases h
        · omega
      · have hlength := hkeeps.1
        rw [hmatrices, List.length_map, Forest.length_paths] at hlength
        rw [hlength, ← hpose]
    · cases hupdate

/-- Playbacks evaluate their joints exactly if they have got memory for the matrices and the number
of joints is an `int`. -/
theorem plays_iff (hcounts : forest.counts = armature.joints.map Joint.nchildren)
    (hcovers : Covers armature action) (repeats : Bool) (contents : ℕ → M) (granted : Bool) :
    Plays forest action (.start armature action repeats contents granted) ↔
      armature.joints.length < 2 ^ 31 ∧ (granted = true ∨ armature.joints = []) := by
  constructor
  · intro h
    obtain ⟨y, hupdates, hevaluated⟩ := h _ .refl
    obtain ⟨hcount, hmatrices⟩ := bounds_of_evaluated rfl hupdates hevaluated
    rw [size_eq hcounts] at hcount hmatrices
    refine ⟨hcount, ?_⟩
    cases granted with
    | true => exact .inl rfl
    | false => exact .inr (List.eq_nil_of_length_eq_zero hmatrices.symm)
  · rintro ⟨hcount, hgranted⟩
    refine plays_of_ready ⟨rfl, rfl, ?_⟩ hcounts hcovers hcount
    obtain rfl | hnone := hgranted
    · rw [Playback.start, if_pos rfl, List.length_map, List.length_range]
    · rw [Playback.start, hnone]
      cases granted <;> rfl

/-- A joint with a child. -/
def limb : Armature := ⟨[⟨1, by decide⟩, ⟨0, by decide⟩]⟩

/-- An action of one frame with the same matrices for both joints. -/
def bend : Action ℕ := ⟨1, by decide, [⟨[⟨2, 3, 1⟩, ⟨2, 3, 1⟩]⟩]⟩

theorem covers_bend : Covers limb bend := ⟨by decide, by decide, by decide⟩

theorem plays_iff_limb : Plays (.cons (.cons .nil .nil) .nil) bend
    (.start limb bend true (fun _ => 0) true) :=
  (plays_iff (by decide) covers_bend true (fun _ => 0) true).mpr ⟨by decide, .inl rfl⟩

/-- Without memory the first update goes outside of the array of matrices. -/
theorem not_plays_limb :
    (Playback.start limb bend true (fun _ => 0) false).update 3 = .error .outside ∧
      ¬ Plays (.cons (.cons .nil .nil) .nil) bend (.start limb bend true (fun _ => 0) false) := by
  refine ⟨rfl, fun h => ?_⟩
  obtain ⟨y, hupdates, hevaluated⟩ := h _ .refl
  exact absurd (bounds_of_evaluated rfl hupdates hevaluated).2 (by decide)

end Runs

end Fimbulwinter.SkeletonPlayback
