import Fimbulwinter.JsonAcceptance

/-! # Cut off texts

A text that is cut off behind a nested value begins with no complete value, but
`structure_json` accepts it. -/
namespace Fimbulwinter.Json

section Truncation

variable {Ty Kind N : Type*} {shape : Ty → Shape Ty Kind}
  {fromChars : Kind → Text → Option (N × ℕ)} {fresh : Ty → Value N}

/-! ## No text is both -/

theorem Complete.unique {item : Item Ty} {input rest rest' : Text}
    (h : Complete shape fromChars item input rest)
    (h' : Complete shape fromChars item input rest') : rest = rest' := by
  let fresh : Ty → Value N := fun _ => .bool Bool.true
  have hreads : Reads shape fromChars fresh item input rest := h.reads
  have hreads' : Reads shape fromChars fresh item input rest' := h'.reads
  obtain ⟨y, hy⟩ := hreads _ 0 (.bool Bool.true) le_rfl
  obtain ⟨y', hy'⟩ := hreads' _ 0 (.bool Bool.true) le_rfl
  exact (Prod.mk.inj (Except.ok.inj (hy.symm.trans hy'))).1

theorem Complete.of_space {t : Ty} {c : UInt8} {input rest : Text} (hc : c ≤ Json.space)
    (h : Complete shape fromChars (.value t) (c :: input) rest) :
    Complete shape fromChars (.value t) input rest := by
  generalize htext : c :: input = text at h
  cases h with
  | space _ value =>
    cases htext
    exact value
  | number _ hlt =>
    cases htext
    exact absurd hc (UInt8.not_le.mpr hlt)
  | true | false | enum | string | emptyRange | range | tuple | members =>
    cases htext
    exact absurd hc (by decide)

/-- What comes behind the opening bracket or brace of a value. -/
theorem Complete.of_lt {t : Ty} {c : UInt8} {input rest : Text} (hc : Json.space < c)
    (h : Complete shape fromChars (.value t) (c :: input) rest) :
    (∀ element, shape t = .range element →
      Next closeBracket input rest ∨ Complete shape fromChars (.elements element) input rest) ∧
    (∀ first more, shape t = .tuple first more →
      Complete shape fromChars (.items first more) input rest) ∧
    (∀ table, shape t = .members table →
      Complete shape fromChars (.members table) input rest) := by
  generalize htext : c :: input = text at h
  cases h with
  | space hle =>
    cases htext
    exact absurd hle (UInt8.not_le.mpr hc)
  | true hshape | false hshape | number hshape | enum hshape | string hshape =>
    simp [hshape]
  | emptyRange hshape hclose =>
    cases htext
    simp [hshape, hclose]
  | range hshape _ elements =>
    cases htext
    simpa [hshape] using .inr elements
  | tuple hshape items =>
    cases htext
    simpa [hshape] using items
  | members hshape members =>
    cases htext
    simpa [hshape] using members

theorem Cut.not_complete {item : Item Ty} {input : Text} (h : Cut shape fromChars item input)
    (rest : Text) : ¬ Complete shape fromChars item input rest := by
  have hcomma : Json.space < Json.comma := by decide
  have hbracket : Json.space < closeBracket := by decide
  have hbrace : Json.space < closeBrace := by decide
  intro hcomplete
  induction h generalizing rest with
  | space hc _ ih => exact ih rest (hcomplete.of_space hc)
  | range hshape hopen _ ih =>
    exact ih rest (((hcomplete.of_lt (by decide)).1 _ hshape).resolve_left (hopen rest))
  | tuple hshape _ ih => exact ih rest ((hcomplete.of_lt (by decide)).2.1 _ _ hshape)
  | members hshape _ ih => exact ih rest ((hcomplete.of_lt (by decide)).2.2 _ hshape)
  | elementEnds hvalue =>
    cases hcomplete with
    | lastElement hvalue' hclose => exact not_next_nil _ _ (hvalue.unique hvalue' ▸ hclose)
    | nextElement hvalue' hnext => exact not_next_nil _ _ (hvalue.unique hvalue' ▸ hnext)
  | elementCut _ ih =>
    cases hcomplete with
    | lastElement hvalue' => exact ih _ hvalue'
    | nextElement hvalue' => exact ih _ hvalue'
  | nextElement hvalue hnext _ ih =>
    cases hcomplete with
    | lastElement hvalue' hclose =>
      rw [hvalue.unique hvalue'] at hnext
      exact absurd (hnext.unique hclose hcomma hbracket).1 (by decide)
    | nextElement hvalue' hnext' elements =>
      rw [hvalue.unique hvalue'] at hnext
      rw [← (hnext.unique hnext' hcomma hcomma).2] at elements
      exact ih rest elements
  | itemEnds hvalue =>
    cases hcomplete with
    | lastItem hvalue' hclose => exact not_next_nil _ _ (hvalue.unique hvalue' ▸ hclose)
    | nextItem hvalue' hnext => exact not_next_nil _ _ (hvalue.unique hvalue' ▸ hnext)
  | itemCut _ ih =>
    cases hcomplete with
    | lastItem hvalue' => exact ih _ hvalue'
    | nextItem hvalue' => exact ih _ hvalue'
  | nextItem hvalue hnext _ ih =>
    cases hcomplete with
    | nextItem hvalue' hnext' items =>
      rw [hvalue.unique hvalue'] at hnext
      rw [← (hnext.unique hnext' hcomma hcomma).2] at items
      exact ih rest items
  | memberEnds hname hvalue =>
    cases hcomplete with
    | lastMember hname' hvalue' hclose =>
      obtain ⟨rfl, rfl⟩ := hname.unique hname'
      exact not_next_nil _ _ (hvalue.unique hvalue' ▸ hclose)
    | nextMember hname' hvalue' hnext =>
      obtain ⟨rfl, rfl⟩ := hname.unique hname'
      exact not_next_nil _ _ (hvalue.unique hvalue' ▸ hnext)
  | memberCut hname _ ih =>
    cases hcomplete with
    | lastMember hname' hvalue' =>
      obtain ⟨rfl, rfl⟩ := hname.unique hname'
      exact ih _ hvalue'
    | nextMember hname' hvalue' =>
      obtain ⟨rfl, rfl⟩ := hname.unique hname'
      exact ih _ hvalue'
  | nextMember hname hvalue hnext _ ih =>
    cases hcomplete with
    | lastMember hname' hvalue' hclose =>
      obtain ⟨rfl, rfl⟩ := hname.unique hname'
      rw [hvalue.unique hvalue'] at hnext
      exact absurd (hnext.unique hclose hcomma hbrace).1 (by decide)
    | nextMember hname' hvalue' hnext' members =>
      obtain ⟨rfl, rfl⟩ := hname.unique hname'
      rw [hvalue.unique hvalue'] at hnext
      rw [← (hnext.unique hnext' hcomma hcomma).2] at members
      exact ih rest members

/-! ## The fuel suffices -/

theorem skipWhitespace_length_le {input rest : Text} (h : skipWhitespace input = .ok rest) :
    rest.length ≤ input.length := by
  obtain ⟨ws, c, cs, -, rfl, -, -⟩ := skipWhitespace_ok h
  rw [List.length_append]
  omega

theorem length_tail_lt {c : UInt8} {text : Text} (h : text.head? = some c) :
    text.tail.length < text.length := by
  cases text with
  | nil => cases h
  | cons d text => exact Nat.lt_succ_self _

theorem skipWhitespace_ne_outOfFuel (input : Text) :
    skipWhitespace input ≠ .error .outOfFuel := by
  induction input with
  | nil => rintro ⟨⟩
  | cons c input ih =>
    rw [skipWhitespace]
    split_ifs
    · exact ih
    · rintro ⟨⟩

theorem readStringLoop_ne_outOfFuel (passed start input : Text) :
    readStringLoop passed start input ≠ .error .outOfFuel := by
  induction input generalizing passed start with
  | nil => rintro ⟨⟩
  | cons c input ih =>
    rw [readStringLoop]
    split_ifs
    all_goals first | exact ih _ _ | rintro ⟨⟩

theorem readString_ne_outOfFuel (input : Text) : readString input ≠ .error .outOfFuel := by
  cases input with
  | nil => rintro ⟨⟩
  | cons c input =>
    rw [readString]
    split_ifs
    · exact readStringLoop_ne_outOfFuel _ _ _
    · rintro ⟨⟩

theorem readBool_ne_outOfFuel (input : Text) :
    (readBool input : Except Failure (Text × Value N)) ≠ .error .outOfFuel := by
  rw [readBool]
  split_ifs
  all_goals rintro ⟨⟩

theorem readNumber_ne_outOfFuel (kind : Kind) (input : Text) :
    readNumber fromChars kind input ≠ .error .outOfFuel := by
  rw [readNumber]
  split
  · split_ifs
    all_goals rintro ⟨⟩
  · rintro ⟨⟩

theorem readEnum_ne_outOfFuel (table : List (Text × ℕ)) (input : Text) :
    (readEnum table input : Except Failure (Text × Value N)) ≠ .error .outOfFuel := by
  rw [readEnum]
  split
  · next e hread => exact fun h => readString_ne_outOfFuel input (hread.trans (by rw [Except.error.inj h]))
  · split
    all_goals rintro ⟨⟩

theorem readText_ne_outOfFuel (input : Text) :
    (readText input : Except Failure (Text × Value N)) ≠ .error .outOfFuel := by
  rw [readText]
  split
  · next e hread => exact fun h => readString_ne_outOfFuel input (hread.trans (by rw [Except.error.inj h]))
  · rintro ⟨⟩

variable (shape fromChars fresh) in
/-- No item that so much fuel suffices for runs out of it. -/
def Enough (fuel : ℕ) : Prop :=
  ∀ i item input x, item.fuel input ≤ fuel →
    readItem shape fromChars fresh fuel i item input x ≠ .error .outOfFuel

theorem Enough.value {fuel : ℕ} (henough : Enough shape fromChars fresh fuel) {t : Ty}
    {input : Text} (hfuel : 2 * input.length ≤ fuel) (x : Value N) :
    readValue shape fromChars fresh (fuel + 1) t input x ≠ .error .outOfFuel := by
  rw [readValue]
  cases hskip : skipWhitespace input with
  | error e =>
    intro h
    cases h
    exact skipWhitespace_ne_outOfFuel input hskip
  | ok input' =>
    have hle := skipWhitespace_length_le hskip
    simp only
    split
    · exact readBool_ne_outOfFuel input'
    · exact readNumber_ne_outOfFuel _ input'
    · exact readEnum_ne_outOfFuel _ input'
    · exact readText_ne_outOfFuel input'
    · next element _ =>
      split_ifs with hopen
      · have hlt := length_tail_lt hopen
        cases hskip' : skipWhitespace input'.tail with
        | error e =>
          intro h
          cases h
          exact skipWhitespace_ne_outOfFuel _ hskip'
        | ok input'' =>
          have hle' := skipWhitespace_length_le hskip'
          simp only
          split_ifs
          · rintro ⟨⟩
          · exact henough 0 (.elements element) input'' x (by simp only [Item.fuel]; omega)
      · rintro ⟨⟩
    · next first more _ =>
      split_ifs with hopen
      · have hlt := length_tail_lt hopen
        exact henough 0 (.items first more) _ x (by simp only [Item.fuel]; omega)
      · rintro ⟨⟩
    · next table _ =>
      split_ifs with hopen
      · have hlt := length_tail_lt hopen
        exact henough 0 (.members table) _ x (by simp only [Item.fuel]; omega)
      · rintro ⟨⟩

/-- How much is left behind a value that more of the text comes after. -/
theorem length_lt_of_readValue {fuel : ℕ} {t : Ty} {input mid : Text} {x y : Value N}
    (h : readValue shape fromChars fresh fuel t input x = .ok (mid, y)) (hmid : mid ≠ []) :
    mid.length < input.length :=
  ((sound fuel 0 (.value t) input x mid y h).complete hmid).length_lt

theorem Enough.elements {fuel : ℕ} (henough : Enough shape fromChars fresh fuel) {element : Ty}
    {input : Text} (hfuel : 2 * input.length + 1 ≤ fuel) (x : Value N) :
    readElements shape fromChars fresh (fuel + 1) element input x ≠ .error .outOfFuel := by
  have hvalue := henough 0 (.value element) input (fresh element) hfuel
  rw [readElements]
  split
  · next e heq =>
    intro h
    cases h
    exact hvalue heq
  · rintro ⟨⟩
  · next mid y hmid heq =>
    have hlt := length_lt_of_readValue heq hmid
    cases hskip : skipWhitespace mid with
    | error e =>
      intro h
      cases h
      exact skipWhitespace_ne_outOfFuel mid hskip
    | ok rest =>
      have hle := skipWhitespace_length_le hskip
      simp only
      split_ifs with hcomma
      · have hlt' := length_tail_lt hcomma
        exact henough 0 (.elements element) _ _ (by simp only [Item.fuel]; omega)
      · rintro ⟨⟩
      · rintro ⟨⟩

theorem Enough.items {fuel : ℕ} (henough : Enough shape fromChars fresh fuel) {t : Ty}
    {ts : List Ty} {input : Text} (hfuel : 2 * input.length + 1 ≤ fuel) (i : ℕ) (x : Value N) :
    readItems shape fromChars fresh (fuel + 1) i t ts input x ≠ .error .outOfFuel := by
  have hvalue := henough 0 (.value t) input (x.item i) hfuel
  rw [readItems.eq_def]
  simp only
  split
  · next e heq =>
    intro h
    cases h
    exact hvalue heq
  · rintro ⟨⟩
  · next mid y hmid heq =>
    have hlt := length_lt_of_readValue heq hmid
    cases hskip : skipWhitespace mid with
    | error e =>
      intro h
      cases h
      exact skipWhitespace_ne_outOfFuel mid hskip
    | ok rest =>
      have hle := skipWhitespace_length_le hskip
      simp only
      cases ts with
      | nil =>
        simp only
        split_ifs
        all_goals rintro ⟨⟩
      | cons t' ts =>
        simp only
        split_ifs with hcomma
        · have hlt' := length_tail_lt hcomma
          exact henough (i + 1) (.items t' ts) _ _ (by simp only [Item.fuel]; omega)
        · rintro ⟨⟩

theorem Enough.members {fuel : ℕ} (henough : Enough shape fromChars fresh fuel)
    {table : List (Text × Ty)} {input : Text} (hfuel : 2 * input.length + 1 ≤ fuel)
    (x : Value N) :
    readMembers shape fromChars fresh (fuel + 1) table input x ≠ .error .outOfFuel := by
  rw [readMembers]
  cases hskip : skipWhitespace input with
  | error e =>
    intro h
    cases h
    exact skipWhitespace_ne_outOfFuel input hskip
  | ok input' =>
  have hle := skipWhitespace_length_le hskip
  simp only
  cases hread : readString input' with
  | error e =>
    intro h
    cases h
    exact readString_ne_outOfFuel input' hread
  | ok r =>
  obtain ⟨key, rest⟩ := r
  have hlength := congrArg List.length (readString_ok hread).2
  simp only [List.length_cons, List.length_append] at hlength
  simp only
  split
  · rintro ⟨⟩
  next i t _ =>
  cases hskip' : skipWhitespace rest.tail with
  | error e =>
    intro h
    cases h
    exact skipWhitespace_ne_outOfFuel _ hskip'
  | ok body =>
  have hle' := skipWhitespace_length_le hskip'
  simp only
  split_ifs with hcolon
  swap
  · rintro ⟨⟩
  have hlt := length_tail_lt hcolon
  have hvalue := henough 0 (.value t) body.tail (x.item i) (by simp only [Item.fuel]; omega)
  split
  · next e heq =>
    intro h
    cases h
    exact hvalue heq
  · rintro ⟨⟩
  · next mid y hmid heq =>
    have hlt' := length_lt_of_readValue heq hmid
    cases hskip'' : skipWhitespace mid with
    | error e =>
      intro h
      cases h
      exact skipWhitespace_ne_outOfFuel mid hskip''
    | ok rest' =>
      have hle'' := skipWhitespace_length_le hskip''
      simp only
      split_ifs with hcomma
      · have hlt'' := length_tail_lt hcomma
        exact henough 0 (.members table) _ _ (by simp only [Item.fuel]; omega)
      · rintro ⟨⟩
      · rintro ⟨⟩

theorem enough (fuel : ℕ) : Enough shape fromChars fresh fuel := by
  induction fuel with
  | zero =>
    intro i item input x hfuel
    cases item <;> simp only [Item.fuel] at hfuel <;> omega
  | succ fuel ih =>
    intro i item input x hfuel
    cases item with
    | value t => exact ih.value (Nat.le_of_succ_le_succ hfuel) x
    | elements element => exact ih.elements (Nat.le_of_succ_le_succ hfuel) x
    | items t ts => exact ih.items (Nat.le_of_succ_le_succ hfuel) i x
    | members table => exact ih.members (Nat.le_of_succ_le_succ hfuel) x

theorem structureJson_ne_outOfFuel (t : Ty) (input : Text) (x : Value N) :
    structureJson shape fromChars fresh t input x ≠ .error .outOfFuel := by
  have hvalue : readItem shape fromChars fresh (structureFuel input) 0 (.value t) input x ≠
      .error .outOfFuel := enough _ 0 (.value t) input x le_rfl
  intro h
  rw [structureJson] at h
  cases hread : readValue shape fromChars fresh (structureFuel input) t input x with
  | error e =>
    rw [hread] at h
    cases h
    exact hvalue hread
  | ok r =>
    rw [hread] at h
    cases h

/-! ## Acceptance -/

/-- A text is accepted if it begins with a complete value or is cut off behind a nested one. -/
theorem structureJson_ok_iff (t : Ty) (input : Text) (x : Value N) :
    (∃ y, structureJson shape fromChars fresh t input x = .ok y) ↔
      (∃ rest, Complete shape fromChars (.value t) input rest) ∨
        Cut shape fromChars (.value t) input := by
  have hok : (∃ y, structureJson shape fromChars fresh t input x = .ok y) ↔
      ∃ r, readValue shape fromChars fresh (structureFuel input) t input x = .ok r := by
    rw [structureJson]
    cases readValue shape fromChars fresh (structureFuel input) t input x with
    | error e => exact ⟨fun ⟨_, h⟩ => (nomatch h), fun ⟨_, h⟩ => (nomatch h)⟩
    | ok r => exact ⟨fun _ => ⟨r, rfl⟩, fun _ => ⟨r.2, rfl⟩⟩
  rw [hok]
  constructor
  · rintro ⟨⟨rest, y⟩, h⟩
    have hsound : Sound shape fromChars fresh (structureFuel input) := sound _
    exact (hsound 0 (.value t) input x rest y h).imp (⟨rest, ·⟩) And.right
  · rintro (⟨rest, h⟩ | h)
    · obtain ⟨y, hy⟩ := h.reads _ 0 x le_rfl
      exact ⟨_, hy⟩
    · obtain ⟨y, hy⟩ := h.reads _ 0 x le_rfl
      exact ⟨_, hy⟩

/-- What is accepted begins with a complete value of the type, unless the text is cut off behind
a nested value: the position is then zero, which the outer value returns as its own, and which
is not taken for an error. -/
theorem structureJson_complete_iff (shape : Ty → Shape Ty Kind)
    (fromChars : Kind → Text → Option (N × ℕ)) (fresh : Ty → Value N) (t : Ty) (input : Text)
    (x : Value N) :
    ((∃ y, structureJson shape fromChars fresh t input x = .ok y) →
      ∃ rest, Complete shape fromChars (.value t) input rest) ↔
      ¬ Cut shape fromChars (.value t) input := by
  rw [structureJson_ok_iff]
  constructor
  · intro h hcut
    obtain ⟨rest, hcomplete⟩ := h (.inr hcut)
    exact hcut.not_complete rest hcomplete
  · exact fun h haccepted => haccepted.resolve_right h

end Truncation

/-- A range of booleans, and a boolean. -/
def flagsShape (nested : Bool) : Shape Bool Empty := if nested then .bool else .range true

def noNumbers (kind : Empty) : Text → Option (Empty × ℕ) := nomatch kind

def flagsFresh (nested : Bool) : Value Empty := if nested then .bool false else .items []

theorem not_next_trueText (after rest : Text) : ¬ Next closeBracket (trueText ++ after) rest := by
  intro h
  have heq : skipWhitespace (trueText ++ after) = .ok (trueText ++ after) := rfl
  have hclose := Except.ok.inj (heq.symm.trans (h.skipWhitespace (by decide)))
  exact absurd (List.cons.inj hclose).1 (by decide)

/-- A range that is not closed is accepted. -/
theorem structureJson_accepts_open :
    Complete flagsShape noNumbers (.value false) (openBracket :: (trueText ++ [closeBracket])) [] ∧
      (∀ rest, ¬ Complete flagsShape noNumbers (.value false) (openBracket :: trueText) rest) ∧
      ∃ y, structureJson flagsShape noNumbers flagsFresh false (openBracket :: trueText)
        (.items []) = .ok y := by
  have hvalue : Complete flagsShape noNumbers (.value true) (trueText ++ []) [] := .true rfl
  have hcut : Cut flagsShape noNumbers (.value false) (openBracket :: trueText) :=
    .range rfl (not_next_trueText []) (.elementEnds hvalue)
  have hclose : Next closeBracket [closeBracket] [] := ⟨[], fun _ h => (nomatch h), rfl⟩
  refine ⟨.range rfl (not_next_trueText _) (.lastElement (.true rfl) hclose),
    hcut.not_complete, ?_⟩
  exact (structureJson_ok_iff false _ _).mpr (.inr hcut)

end Fimbulwinter.Json
