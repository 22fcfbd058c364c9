import Fimbulwinter.KeyedList
import Mathlib.Data.List.Basic
import Mathlib.Data.List.Infix
import Mathlib.Logic.Function.Basic

/-! # Trees of data and of nodes

Data for the interface arrives in messages that are trees, and a tree of nodes has what reacts to
it. Assets are given by their names. -/
namespace Fimbulwinter.Reactions

abbrev Asset := String

abbrev ViewId := ℕ

/-- `ReactionData::Node` -/
inductive Part
  | key (asset : Asset)
  | index (index : ℕ)
  deriving DecidableEq, Repr

abbrev Path := List Part

/-- `data::Value` -/
inductive Value
  | values (data : List Value)
  | keyValues (data : List (Asset × Value))
  | null
  | text (data : String)

/-- `node_t`; controllers and views are given by their numbers. -/
inductive Node
  | list (itemSetup : Value) (reactions : List ℕ) (nodes : List Node)
  | map (nodes : List (Asset × Node))
  | text (reactions : List ViewId)

inductive Misuse
  | alternative
  | empty
  | missing
  | range
  | known
  deriving DecidableEq, Repr

/-- What is left of a value that has been moved -/
def Value.moved : Value → Value
  | .values _ => .values []
  | .keyValues _ => .keyValues []
  | .null => .null
  | .text _ => .text ""

mutual

/-- `SetupLookup`: the node, and what it leaves of the value -/
def Value.setup : Value → Except Misuse (Node × Value)
  | .values [] => .error .empty
  | .values (item :: rest) => .ok (.list item [] [], .values (item.moved :: rest))
  | .keyValues data =>
    match setupPairs data with
    | .error e => .error e
    | .ok (nodes, data) => .ok (.map nodes, .keyValues data)
  | .null => .error .alternative
  | .text text => .ok (.text [], .text text)

def setupPairs : List (Asset × Value) → Except Misuse (List (Asset × Node) × List (Asset × Value))
  | [] => .ok ([], [])
  | (key, value) :: rest =>
    match value.setup with
    | .error e => .error e
    | .ok (node, value) =>
      match setupPairs rest with
      | .error e => .error e
      | .ok (nodes, rest) => .ok ((key, node) :: nodes, (key, value) :: rest)

end

/-- `find` and `contains` of a map -/
def lookup {α : Type} (key : Asset) : List (Asset × α) → Option α
  | [] => none
  | pair :: nodes => if pair.1 = key then some pair.2 else lookup key nodes

def Node.get? : Node → Path → Option Node
  | node, [] => some node
  | .list _ _ nodes, .index i :: path => nodes[i]?.bind fun node => node.get? path
  | .map nodes, .key key :: path => (lookup key nodes).bind fun node => node.get? path
  | _, _ :: _ => none

def Node.modify (f : Node → Node) : Node → Path → Node
  | node, [] => f node
  | .list itemSetup reactions nodes, .index i :: path =>
    .list itemSetup reactions (nodes.modify i fun node => node.modify f path)
  | .map nodes, .key key :: path =>
    .map (KeyedList.modifyFirst (·.1 = key) (fun pair => (pair.1, pair.2.modify f path)) nodes)
  | node, _ :: _ => node

/-- What `FindNode` leads to -/
inductive Found
  | node (node : Node)
  | exception
  | misuse (e : Misuse)

/-- `FindNode` -/
def Node.findNode : Node → Path → Found
  | node, [] => .node node
  | .text _, _ :: _ => .exception
  | .list _ _ nodes, .index i :: path =>
    match nodes[i]? with
    | none => .misuse .range
    | some node => node.findNode path
  | .map nodes, .key key :: path =>
    match lookup key nodes with
    | none => .exception
    | some node => node.findNode path
  | _, _ :: _ => .misuse .alternative

/-- Nodes for items that a list has not had so far, and what they leave of the item setup -/
def expand (itemSetup : Value) (nodes : List Node) : ℕ → Except Misuse (Value × List Node)
  | 0 => .ok (itemSetup, nodes)
  | more + 1 =>
    match itemSetup.setup with
    | .error e => .error e
    | .ok (node, itemSetup) => expand itemSetup (nodes ++ [node]) more

/-! ## Paths -/

/-- A node without its children -/
inductive Head
  | list (itemSetup : Value) (reactions : List ℕ)
  | map
  | text (reactions : List ViewId)

def Node.head : Node → Head
  | .list itemSetup reactions _ => .list itemSetup reactions
  | .map _ => .map
  | .text reactions => .text reactions

def Node.head? (node : Node) (path : Path) : Option Head := (node.get? path).map Node.head

inductive Kind
  | list
  | map
  | text
  deriving DecidableEq, Repr

def Value.kind? : Value → Path → Option Kind
  | .values _, [] => some .list
  | .keyValues _, [] => some .map
  | .text _, [] => some .text
  | .values (item :: _), .index _ :: path => item.kind? path
  | .keyValues data, .key key :: path => (lookup key data).bind fun value => value.kind? path
  | _, _ => none

/-- What a tree has at a path, or would have if its lists were longer -/
def Node.kind? : Node → Path → Option Kind
  | .list .., [] => some .list
  | .map _, [] => some .map
  | .text _, [] => some .text
  | .list itemSetup _ nodes, .index i :: path =>
    match nodes[i]? with
    | some node => node.kind? path
    | none => itemSetup.kind? path
  | .map nodes, .key key :: path => (lookup key nodes).bind fun node => node.kind? path
  | _, _ :: _ => none

attribute [local simp] Node.get? Node.modify Node.kind? Node.findNode Value.kind? Value.setup setupPairs
  expand lookup

theorem Node.get?_append (node : Node) (path rest : Path) :
    node.get? (path ++ rest) = (node.get? path).bind fun node => node.get? rest := by
  induction path generalizing node with
  | nil => rw [List.nil_append, Node.get?, Option.bind_some]
  | cons part path ih =>
    rcases node with ⟨itemSetup, reactions, nodes⟩ | nodes | reactions <;>
      rcases part with key | i <;>
      simp only [List.cons_append, Node.get?, Option.bind_none]
    · rcases nodes[i]? with _ | node
      · rfl
      · exact ih node
    · rcases lookup key nodes with _ | node
      · rfl
      · exact ih node

theorem lookup_modifyFirst {nodes : List (Asset × Node)} {key : Asset} {f : Node → Node} :
    lookup key (KeyedList.modifyFirst (·.1 = key) (fun pair => (pair.1, f pair.2)) nodes) =
      (lookup key nodes).map f := by
  induction nodes with
  | nil => rfl
  | cons pair nodes ih =>
    by_cases h : pair.1 = key
    · simp [KeyedList.modifyFirst, lookup, h]
    · simp [KeyedList.modifyFirst, lookup, h, ih]

theorem lookup_modifyFirst_ne {nodes : List (Asset × Node)} {key other : Asset} {f : Node → Node}
    (h : other ≠ key) :
    lookup other (KeyedList.modifyFirst (·.1 = key) (fun pair => (pair.1, f pair.2)) nodes) =
      lookup other nodes := by
  induction nodes with
  | nil => rfl
  | cons pair nodes ih =>
    by_cases hkey : pair.1 = key
    · have hne : pair.1 ≠ other := fun heq => h (heq ▸ hkey)
      simp [KeyedList.modifyFirst, lookup, hkey, Ne.symm h]
    · simp [KeyedList.modifyFirst, lookup, hkey, ih]

/-- Below the path of a change -/
theorem Node.get?_modify_append (node : Node) (f : Node → Node) (path rest : Path) :
    (node.modify f path).get? (path ++ rest) =
      (node.get? path).bind fun node => (f node).get? rest := by
  induction path generalizing node with
  | nil => rw [List.nil_append, Node.get?, Node.modify, Option.bind_some]
  | cons part path ih =>
    rcases node with ⟨itemSetup, reactions, nodes⟩ | nodes | reactions <;>
      rcases part with key | i <;>
      simp only [List.cons_append, Node.get?, Node.modify, Option.bind_none]
    · rw [List.getElem?_modify]
      rcases nodes[i]? with _ | node
      · rfl
      · simpa using ih node
    · rw [lookup_modifyFirst (f := fun node => node.modify f _)]
      rcases lookup key nodes with _ | node
      · rfl
      · simpa using ih node

/-- Elsewhere, nodes keep what they have beside their children. -/
theorem Node.head?_modify (node : Node) (f : Node → Node) {path other : Path}
    (h : ¬ path <+: other) : (node.modify f path).head? other = node.head? other := by
  induction path generalizing node other with
  | nil => exact (h List.nil_prefix).elim
  | cons part path ih =>
    rcases other with _ | ⟨part', other⟩
    · rcases node with ⟨itemSetup, reactions, nodes⟩ | nodes | reactions <;>
        rcases part with key | i <;> rfl
    · rcases node with ⟨itemSetup, reactions, nodes⟩ | nodes | reactions <;>
        rcases part with key | i <;> rcases part' with key' | i' <;>
        simp only [Node.head?, Node.get?, Node.modify]
      · rw [List.getElem?_modify]
        by_cases heq : i = i'
        · subst heq
          rcases nodes[i]? with _ | node
          · rfl
          · have := @ih node other fun hpre => h (List.cons_prefix_cons.mpr ⟨rfl, hpre⟩)
            simpa [Node.head?] using this
        · simp [heq]
      · by_cases heq : key' = key
        · subst heq
          rw [lookup_modifyFirst (f := fun node => node.modify f _)]
          rcases lookup key' nodes with _ | node
          · rfl
          · have := @ih node other fun hpre =>
              h (List.cons_prefix_cons.mpr ⟨rfl, hpre⟩)
            simpa [Node.head?] using this
        · rw [lookup_modifyFirst_ne (f := fun node => node.modify f path) heq]

/-- A change at a path that leaves the children alone -/
theorem Node.head?_modify_self {root old : Node} {f : Node → Node} {path : Path}
    (h : root.get? path = some old)
    (hchildren : ∀ part rest, (f old).get? (part :: rest) = old.get? (part :: rest))
    (other : Path) :
    (root.modify f path).head? other =
      if other = path then some (f old).head else root.head? other := by
  by_cases hpre : path <+: other
  · obtain ⟨rest, rfl⟩ := hpre
    rw [Node.head?, Node.get?_modify_append, h, Option.bind_some, Node.head?, Node.get?_append, h,
      Option.bind_some]
    rcases rest with _ | ⟨part, rest⟩
    · rw [if_pos (List.append_nil _), Node.get?, Option.map_some]
    · rw [if_neg (by simp), hchildren]
  · rw [Node.head?_modify _ _ hpre, if_neg]
    rintro rfl
    exact hpre (List.prefix_refl _)

theorem Node.kind?_modify (node : Node) {f : Node → Node} {path : Path}
    (h : ∀ old, node.get? path = some old → ∀ rest, (f old).kind? rest = old.kind? rest)
    (other : Path) : (node.modify f path).kind? other = node.kind? other := by
  induction path generalizing node other with
  | nil => exact h node rfl other
  | cons part path ih =>
    rcases other with _ | ⟨part', other⟩
    · rcases node with ⟨itemSetup, reactions, nodes⟩ | nodes | reactions <;>
        rcases part with key | i <;> rfl
    · rcases node with ⟨itemSetup, reactions, nodes⟩ | nodes | reactions <;>
        rcases part with key | i <;> rcases part' with key' | i' <;>
        simp only [Node.kind?, Node.modify]
      · rw [List.getElem?_modify]
        by_cases heq : i = i'
        · subst heq
          cases hi : nodes[i]? with
          | none => rfl
          | some node =>
            have := ih node (fun old hold => h old (by simp only [Node.get?, hi]; exact hold)) other
            simpa using this
        · simp [heq]
      · by_cases heq : key' = key
        · subst heq
          rw [lookup_modifyFirst (f := fun node => node.modify f _)]
          cases hk : lookup key' nodes with
          | none => rfl
          | some node =>
            have := ih node (fun old hold => h old (by simp only [Node.get?, hk]; exact hold)) other
            simpa using this
        · rw [lookup_modifyFirst_ne (f := fun node => node.modify f path) heq]

theorem Node.kind?_of_get? {node child : Node} {path : Path} (h : node.get? path = some child)
    (rest : Path) : node.kind? (path ++ rest) = child.kind? rest := by
  induction path generalizing node with
  | nil =>
    simp only [Node.get?, Option.some.injEq] at h
    rw [h, List.nil_append]
  | cons part path ih =>
    rcases node with ⟨itemSetup, reactions, nodes⟩ | nodes | reactions <;>
      rcases part with key | i <;>
      simp only [Node.get?, reduceCtorEq] at h
    · obtain ⟨node, hnode, hget⟩ := Option.bind_eq_some_iff.mp h
      simp only [List.cons_append, Node.kind?, hnode]
      exact ih hget
    · obtain ⟨node, hnode, hget⟩ := Option.bind_eq_some_iff.mp h
      simp only [List.cons_append, Node.kind?, hnode]
      exact ih hget

/-- Keys lead to nodes that are there. -/
theorem Node.get?_of_kind? {node : Node} {path : Path} {kind : Kind}
    (hkeys : ∀ part ∈ path, ∃ key, part = .key key) (h : node.kind? path = some kind) :
    ∃ child, node.get? path = some child ∧ child.kind? [] = some kind := by
  induction path generalizing node with
  | nil => exact ⟨node, by simp only [Node.get?], h⟩
  | cons part path ih =>
    obtain ⟨key, rfl⟩ := hkeys part List.mem_cons_self
    rcases node with ⟨itemSetup, reactions, nodes⟩ | nodes | reactions <;>
      simp only [Node.kind?, reduceCtorEq] at h
    obtain ⟨node, hnode, hkind⟩ := Option.bind_eq_some_iff.mp h
    obtain ⟨child, hget, hchild⟩ :=
      ih (fun part hpart => hkeys part (List.mem_cons_of_mem _ hpart)) hkind
    exact ⟨child, by simp only [Node.get?, hnode, Option.bind_some, hget], hchild⟩

theorem eq_text_of_kind? {node : Node} (h : node.kind? [] = some .text) :
    ∃ reactions, node = .text reactions := by
  cases node with
  | text reactions => exact ⟨reactions, rfl⟩
  | list _ _ _ | map _ => simp [Node.kind?] at h

theorem eq_list_of_kind? {node : Node} (h : node.kind? [] = some .list) :
    ∃ itemSetup reactions nodes, node = .list itemSetup reactions nodes := by
  cases node with
  | list itemSetup reactions nodes => exact ⟨itemSetup, reactions, nodes, rfl⟩
  | map _ | text _ => simp [Node.kind?] at h

theorem eq_map_of_kind? {node : Node} (h : node.kind? [] = some .map) :
    ∃ nodes, node = .map nodes := by
  cases node with
  | map nodes => exact ⟨nodes, rfl⟩
  | list _ _ _ | text _ => simp [Node.kind?] at h

theorem findNode_of_get? {node child : Node} {path : Path} (h : node.get? path = some child) :
    node.findNode path = .node child := by
  induction path generalizing node with
  | nil =>
    simp only [Node.get?, Option.some.injEq] at h
    simp only [Node.findNode, h]
  | cons part path ih =>
    rcases node with ⟨itemSetup, reactions, nodes⟩ | nodes | reactions <;>
      rcases part with key | i <;>
      simp only [Node.get?, reduceCtorEq] at h
    · obtain ⟨node, hnode, hget⟩ := Option.bind_eq_some_iff.mp h
      simp only [Node.findNode, hnode]
      exact ih hget
    · obtain ⟨node, hnode, hget⟩ := Option.bind_eq_some_iff.mp h
      simp only [Node.findNode, hnode]
      exact ih hget

/-! ## Setup -/

/-- A value that can be set up again and again: what a list is moved out of once is a text. -/
inductive Repeatable : Value → Prop
  | text (text : String) : Repeatable (.text text)
  | list (text : String) (rest : List Value) : Repeatable (.values (.text text :: rest))
  | map {data : List (Asset × Value)} (h : ∀ pair ∈ data, Repeatable pair.2) :
    Repeatable (.keyValues data)

/-- A value that can be set up once, whose items can be set up again and again -/
inductive Template : Value → Prop
  | text (text : String) : Template (.text text)
  | list {item : Value} (h : Repeatable item) (rest : List Value) :
    Template (.values (item :: rest))
  | map {data : List (Asset × Value)} (h : ∀ pair ∈ data, Template pair.2) :
    Template (.keyValues data)

/-- Nothing reacts to a node, and its list can grow. -/
def Head.Blank : Head → Prop
  | .list itemSetup reactions => reactions = [] ∧ Repeatable itemSetup
  | .map => True
  | .text reactions => reactions = []

def Node.Blank (node : Node) : Prop := ∀ path head, node.head? path = some head → head.Blank

/-- Setting up a value succeeds, with a new node of the same kinds. -/
def SetsUp (value : Value) (left : Value → Prop) : Prop :=
  ∃ node rest, value.setup = .ok (node, rest) ∧ node.Blank ∧
    (∀ path, node.kind? path = value.kind? path) ∧ left rest

theorem blank_of_children {node : Node} (head : node.head.Blank)
    (h : ∀ part child, node.get? [part] = some child → child.Blank) : node.Blank := by
  intro path head' hhead
  rcases path with _ | ⟨part, path⟩
  · rw [Node.head?, Node.get?, Option.map_some, Option.some.injEq] at hhead
    exact hhead ▸ head
  · rw [Node.head?, ← List.singleton_append, Node.get?_append] at hhead
    cases hchild : node.get? [part] with
    | none => simp [hchild] at hhead
    | some child =>
      rw [hchild, Option.bind_some] at hhead
      exact h part child hchild path head' hhead

theorem setupPairs_spec (left : Value → Value → Prop) {data : List (Asset × Value)}
    (h : ∀ pair ∈ data, SetsUp pair.2 (left pair.2)) :
    ∃ nodes rest, setupPairs data = .ok (nodes, rest) ∧
      (∀ key node, lookup key nodes = some node → node.Blank) ∧
      (∀ key path, ((lookup key nodes).bind fun node => node.kind? path) =
        (lookup key data).bind fun value => value.kind? path) ∧
      List.Forall₂ (fun pair pair' => pair.1 = pair'.1 ∧ left pair.2 pair'.2) data rest := by
  induction data with
  | nil => exact ⟨[], [], rfl, nofun, fun _ _ => rfl, .nil⟩
  | cons pair data ih =>
    obtain ⟨key, value⟩ := pair
    obtain ⟨node, left', hsetup, hblank, hkind, hleft⟩ := h (key, value) List.mem_cons_self
    obtain ⟨nodes, rest, hpairs, hnodes, hkinds, hrest⟩ :=
      ih fun pair hmem => h pair (List.mem_cons_of_mem _ hmem)
    refine ⟨(key, node) :: nodes, (key, left') :: rest, ?_, ?_, ?_, .cons ⟨rfl, hleft⟩ hrest⟩
    · simp only [setupPairs, hsetup, hpairs]
    · intro other node' hother
      rw [lookup] at hother
      split at hother
      · cases hother
        exact hblank
      · exact hnodes other node' hother
    · intro other path
      by_cases heq : key = other
      · simpa [lookup, heq] using hkind path
      · simpa [lookup, heq] using hkinds other path

theorem blank_map {nodes : List (Asset × Node)}
    (h : ∀ key node, lookup key nodes = some node → node.Blank) : (Node.map nodes).Blank := by
  refine blank_of_children trivial fun part child hchild => ?_
  rcases part with key | i <;> simp only [Node.get?] at hchild
  · obtain ⟨node, hnode, heq⟩ := Option.bind_eq_some_iff.mp hchild
    simp only [Option.some.injEq] at heq
    exact heq ▸ h key node hnode
  · cases hchild

theorem blank_text : (Node.text []).Blank :=
  blank_of_children rfl fun part _ hchild => by rcases part with key | i <;> cases hchild

theorem blank_list {item : Value} (h : Repeatable item) : (Node.list item [] []).Blank := by
  refine blank_of_children ⟨rfl, h⟩ fun part child hchild => ?_
  rcases part with key | i <;> simp [Node.get?] at hchild

theorem kind?_map {nodes : List (Asset × Node)} {data : List (Asset × Value)}
    (h : ∀ key path, ((lookup key nodes).bind fun node => node.kind? path) =
      (lookup key data).bind fun value => value.kind? path) (path : Path) :
    (Node.map nodes).kind? path = (Value.keyValues data).kind? path := by
  rcases path with _ | ⟨key | i, path⟩
  · rfl
  · exact h key path
  · rfl

theorem kind?_text (text text' : String) (path : Path) :
    (Value.text text).kind? path = (Value.text text').kind? path := by
  rcases path with _ | ⟨key | i, path⟩ <;> rfl

theorem kind?_list (item : Value) (rest : List Value) (path : Path) :
    (Node.list item [] []).kind? path = (Value.values (item :: rest)).kind? path := by
  rcases path with _ | ⟨key | i, path⟩ <;> rfl

/-- What is left of pairs that can be set up again -/
theorem repeatable_pairs {data rest : List (Asset × Value)}
    (h : List.Forall₂ (fun pair pair' => pair.1 = pair'.1 ∧
      (Repeatable pair'.2 ∧ ∀ path, pair'.2.kind? path = pair.2.kind? path)) data rest) :
    (∀ pair ∈ rest, Repeatable pair.2) ∧ ∀ key path,
      ((lookup key rest).bind fun value => value.kind? path) =
        (lookup key data).bind fun value => value.kind? path := by
  induction h with
  | nil => exact ⟨nofun, fun _ _ => rfl⟩
  | cons hpair hrest ih =>
    obtain ⟨hkey, hrepeatable, hkind⟩ := hpair
    refine ⟨List.forall_mem_cons.mpr ⟨hrepeatable, ih.1⟩, fun key path => ?_⟩
    rw [lookup, lookup, hkey]
    split
    · exact hkind path
    · exact ih.2 key path

theorem Repeatable.setsUp {value : Value} (h : Repeatable value) :
    SetsUp value fun rest => Repeatable rest ∧ ∀ path, rest.kind? path = value.kind? path := by
  induction h with
  | text text =>
    refine ⟨.text [], .text text, by rw [Value.setup], blank_text, fun path => ?_, .text text,
      fun _ => rfl⟩
    rcases path with _ | ⟨key | i, path⟩ <;> rfl
  | list text rest =>
    refine ⟨.list (.text text) [] [], .values (.text "" :: rest), by rw [Value.setup, Value.moved],
      blank_list (.text text), kind?_list _ _, .list "" rest, fun path => ?_⟩
    rcases path with _ | ⟨key | i, path⟩
    · rfl
    · rfl
    · exact kind?_text "" text path
  | map h ih =>
    obtain ⟨nodes, rest, hsetup, hblank, hkind, hrest⟩ := setupPairs_spec (fun value rest =>
      Repeatable rest ∧ ∀ path, rest.kind? path = value.kind? path) ih
    obtain ⟨hrepeatable, hkinds⟩ := repeatable_pairs hrest
    refine ⟨.map nodes, .keyValues rest, by rw [Value.setup, hsetup], blank_map hblank,
      kind?_map hkind, .map hrepeatable, fun path => ?_⟩
    rcases path with _ | ⟨key | i, path⟩
    · rfl
    · exact hkinds key path
    · rfl

theorem Template.setsUp {value : Value} (h : Template value) : SetsUp value fun _ => True := by
  induction h with
  | text text =>
    refine ⟨.text [], .text text, by rw [Value.setup], blank_text, fun path => ?_, trivial⟩
    rcases path with _ | ⟨key | i, path⟩ <;> rfl
  | list h rest =>
    exact ⟨_, _, by rw [Value.setup], blank_list h, kind?_list _ _, trivial⟩
  | map h ih =>
    obtain ⟨nodes, rest, hsetup, hblank, hkind, -⟩ := setupPairs_spec (fun _ _ => True) ih
    exact ⟨.map nodes, .keyValues rest, by rw [Value.setup, hsetup], blank_map hblank,
      kind?_map hkind, trivial⟩

/-- A list grows by blank nodes of the kinds of its template. -/
theorem expand_spec {itemSetup : Value} (h : Repeatable itemSetup) (nodes : List Node) (more : ℕ) :
    ∃ itemSetup' new, expand itemSetup nodes more = .ok (itemSetup', nodes ++ new) ∧
      Repeatable itemSetup' ∧ (∀ path, itemSetup'.kind? path = itemSetup.kind? path) ∧
      new.length = more ∧
      ∀ node ∈ new, node.Blank ∧ ∀ path, node.kind? path = itemSetup.kind? path := by
  induction more generalizing itemSetup nodes with
  | zero => exact ⟨itemSetup, [], by rw [expand, List.append_nil], h, fun _ => rfl, rfl, nofun⟩
  | succ more ih =>
    obtain ⟨node, left, hsetup, hblank, hkind, hleft, hkinds⟩ := h.setsUp
    obtain ⟨last, new, hexpand, hlast, hlastKinds, hlength, hnew⟩ := ih hleft (nodes ++ [node])
    refine ⟨last, node :: new, ?_, hlast, fun path => (hlastKinds path).trans (hkinds path), ?_, ?_⟩
    · rw [expand, hsetup]
      simp only [hexpand, List.append_assoc, List.singleton_append]
    · rw [List.length_cons, hlength]
    · exact List.forall_mem_cons.mpr ⟨⟨hblank, hkind⟩, fun node' hmem =>
        ⟨(hnew node' hmem).1, fun path => ((hnew node' hmem).2 path).trans (hkinds path)⟩⟩

/-- The kinds of a list do not change when it grows. -/
theorem kind?_grown {itemSetup itemSetup' : Value} {reactions reactions' : List ℕ}
    {nodes new : List Node} (hleft : ∀ path, itemSetup'.kind? path = itemSetup.kind? path)
    (hnew : ∀ node ∈ new, ∀ path, node.kind? path = itemSetup.kind? path) (path : Path) :
    (Node.list itemSetup' reactions' (nodes ++ new)).kind? path =
      (Node.list itemSetup reactions nodes).kind? path := by
  rcases path with _ | ⟨key | i, path⟩
  · rfl
  · rfl
  · rw [Node.kind?, Node.kind?]
    by_cases hi : i < nodes.length
    · rw [List.getElem?_append_left hi, List.getElem?_eq_getElem hi]
    · rw [List.getElem?_append_right (Nat.not_lt.mp hi),
        List.getElem?_eq_none (Nat.not_lt.mp hi)]
      cases hnode : new[i - nodes.length]? with
      | none => exact hleft path
      | some node => exact hnew node (List.mem_of_getElem? hnode) path

/-! ## Templates of lists that grow -/

theorem lookup_of_mem {α : Type} {data : List (Asset × α)} {key : Asset} {value : α}
    (nodup : (data.map Prod.fst).Nodup) (h : (key, value) ∈ data) :
    lookup key data = some value := by
  induction data with
  | nil => cases h
  | cons pair data ih =>
    obtain ⟨hnot, hnodup⟩ := List.nodup_cons.mp nodup
    rcases List.mem_cons.mp h with rfl | hmem
    · rw [lookup, if_pos rfl]
    · rw [lookup, if_neg, ih hnodup hmem]
      intro heq
      exact hnot (heq ▸ List.mem_map_of_mem (f := Prod.fst) hmem)

theorem mem_of_lookup {α : Type} {data : List (Asset × α)} {key : Asset} {value : α}
    (h : lookup key data = some value) : (key, value) ∈ data := by
  induction data with
  | nil => cases h
  | cons pair data ih =>
    rw [lookup] at h
    split at h
    · rename_i heq
      cases h
      exact heq ▸ List.mem_cons_self
    · exact List.mem_cons_of_mem _ (ih h)

/-- A value with items in its lists, keys in its maps, each of them once, and without nulls: what
data is set up with. -/
inductive Formed : Value → Prop
  | text (text : String) : Formed (.text text)
  | list {item : Value} (h : Formed item) (rest : List Value) : Formed (.values (item :: rest))
  | map {data : List (Asset × Value)} (nonempty : data ≠ []) (nodup : (data.map Prod.fst).Nodup)
    (h : ∀ pair ∈ data, Formed pair.2) : Formed (.keyValues data)

theorem Formed.kind?_isSome {value : Value} (h : Formed value) : (value.kind? []).isSome := by
  cases h <;> rfl

/-- What is moved out of a formed value can only be missed if it was no text. -/
theorem Formed.text_of_moved {value : Value} (h : Formed value)
    (hkind : ∀ path, value.moved.kind? path = value.kind? path) : ∃ text, value = .text text := by
  cases h with
  | text text => exact ⟨text, rfl⟩
  | list h rest =>
    have hitem := hkind [.index 0]
    simp only [Value.moved, Value.kind?] at hitem
    have hsome := h.kind?_isSome
    rw [← hitem] at hsome
    cases hsome
  | map nonempty nodup h =>
    rename_i data
    rcases data with _ | ⟨⟨key, value⟩, data⟩
    · exact (nonempty rfl).elim
    · have hitem := hkind [.key key]
      simp only [Value.moved, Value.kind?, lookup, if_true, Option.bind_none, Option.bind_some]
        at hitem
      have hsome := (h (key, value) List.mem_cons_self).kind?_isSome
      rw [← hitem] at hsome
      cases hsome

/-- The pairs of a map are set up one by one. -/
theorem setupPairs_mem {data rest : List (Asset × Value)} {nodes : List (Asset × Node)}
    (h : setupPairs data = .ok (nodes, rest)) :
    rest.map Prod.fst = data.map Prod.fst ∧ ((data.map Prod.fst).Nodup →
      ∀ key value, (key, value) ∈ data → ∃ node left, value.setup = .ok (node, left) ∧
        lookup key nodes = some node ∧ (key, left) ∈ rest) := by
  induction data generalizing nodes rest with
  | nil =>
    cases h
    exact ⟨rfl, fun _ _ _ hmem => by cases hmem⟩
  | cons pair data ih =>
    obtain ⟨first, value⟩ := pair
    rw [setupPairs] at h
    split at h
    · cases h
    · rename_i node left hsetup
      split at h
      · cases h
      · rename_i nodes' rest' hpairs
        cases h
        obtain ⟨hkeys, hmem⟩ := ih hpairs
        refine ⟨by rw [List.map_cons, List.map_cons, hkeys], fun nodup key value' hvalue => ?_⟩
        obtain ⟨hnot, hnodup⟩ := List.nodup_cons.mp nodup
        rcases List.mem_cons.mp hvalue with heq | hvalue
        · cases heq
          exact ⟨node, left, hsetup, by rw [lookup, if_pos rfl], List.mem_cons_self⟩
        · obtain ⟨node', left', hsetup', hlookup, hleft⟩ := hmem hnodup key value' hvalue
          refine ⟨node', left', hsetup', ?_, List.mem_cons_of_mem _ hleft⟩
          rw [lookup, if_neg, hlookup]
          intro heq
          exact hnot (heq ▸ List.mem_map_of_mem (f := Prod.fst) hvalue)

/-- A second item of the kinds of the template -/
def SetsUpTwice (value : Value) : Prop :=
  ∃ node left node' left', value.setup = .ok (node, left) ∧ left.setup = .ok (node', left') ∧
    ∀ path, node'.kind? path = value.kind? path

theorem Formed.repeatable {value : Value} (h : Formed value) (twice : SetsUpTwice value) :
    Repeatable value := by
  induction h with
  | text text => exact .text text
  | list h rest ih =>
    rename_i item
    obtain ⟨node, left, node', left', hfirst, hsecond, hkind⟩ := twice
    rw [Value.setup] at hfirst
    cases hfirst
    rw [Value.setup] at hsecond
    cases hsecond
    obtain ⟨text, rfl⟩ := h.text_of_moved fun path => hkind (.index 0 :: path)
    exact .list text rest
  | map nonempty nodup h ih =>
    rename_i data
    obtain ⟨node, left, node', left', hfirst, hsecond, hkind⟩ := twice
    rw [Value.setup] at hfirst
    split at hfirst
    · cases hfirst
    · rename_i nodes rest hpairs
      cases hfirst
      rw [Value.setup] at hsecond
      split at hsecond
      · cases hsecond
      · rename_i nodes' rest' hpairs'
        cases hsecond
        obtain ⟨hkeys, hmem⟩ := setupPairs_mem hpairs
        obtain ⟨-, hmem'⟩ := setupPairs_mem hpairs'
        refine .map fun pair hpair => ih pair hpair ?_
        obtain ⟨node, left, hsetup, -, hleft⟩ := hmem nodup pair.1 pair.2 hpair
        obtain ⟨node', left', hsetup', hlookup, -⟩ := hmem' (hkeys ▸ nodup) pair.1 left hleft
        refine ⟨node, left, node', left', hsetup, hsetup', fun path => ?_⟩
        have := hkind (.key pair.1 :: path)
        simpa [Node.kind?, Value.kind?, hlookup, lookup_of_mem nodup hpair] using this

/-- A list can grow to any length with items that are all of the kinds of the template exactly if
the lists in the template are lists of texts: all others lose what their items are set up with as
soon as there is a second item. -/
theorem grows_alike_iff {value : Value} (h : Formed value) :
    Repeatable value ↔ ∀ size, ∃ itemSetup nodes, expand value [] size = .ok (itemSetup, nodes) ∧
      nodes.length = size ∧ ∀ node ∈ nodes, ∀ path, node.kind? path = value.kind? path := by
  constructor
  · intro hrepeatable size
    obtain ⟨itemSetup, nodes, hexpand, -, -, hlength, hnodes⟩ := expand_spec hrepeatable [] size
    exact ⟨itemSetup, nodes, hexpand, hlength, fun node hmem => (hnodes node hmem).2⟩
  · intro hgrows
    obtain ⟨itemSetup, nodes, hexpand, -, hnodes⟩ := hgrows 2
    refine h.repeatable ?_
    rw [expand] at hexpand
    split at hexpand
    · cases hexpand
    · rename_i node left hsetup
      rw [expand] at hexpand
      split at hexpand
      · cases hexpand
      · rename_i node' left' hsetup'
        rw [expand] at hexpand
        cases hexpand
        exact ⟨node, left, node', itemSetup, hsetup, hsetup', hnodes node' (by simp)⟩

/-- The items of a list are lists of maps. -/
theorem grows_alike_iff_lists :
    Repeatable (.values [.keyValues [("name", .text "")]]) ↔
      ∀ size, ∃ itemSetup nodes,
        expand (.values [.keyValues [("name", .text "")]]) [] size = .ok (itemSetup, nodes) ∧
          nodes.length = size ∧ ∀ node ∈ nodes, ∀ path,
            node.kind? path = (Value.values [.keyValues [("name", .text "")]]).kind? path := by
  have formed : Formed (.keyValues [("name", .text "")]) := by
    refine .map (List.cons_ne_nil _ _) (List.nodup_singleton _) fun pair hmem => ?_
    obtain rfl := List.mem_singleton.mp hmem
    exact .text ""
  exact grows_alike_iff (.list formed [])

end Fimbulwinter.Reactions
