import Fimbulwinter.JsonGrammar

/-! # The texts that `core::structure_json` accepts

They begin with a complete value, or are cut off behind a nested one. -/
namespace Fimbulwinter.Json

/-! ## What comes next is determined -/

theorem Next.unique {c d : UInt8} {input rest rest' : Text} (h : Next c input rest)
    (h' : Next d input rest') (hc : space < c) (hd : space < d) : c = d ∧ rest = rest' := by
  have heq := (h.skipWhitespace hc).symm.trans (h'.skipWhitespace hd)
  exact List.cons.inj (Except.ok.inj heq)

theorem not_next_nil (c : UInt8) (rest : Text) : ¬ Next c [] rest := fun h =>
  absurd h.length_lt (Nat.not_lt_zero _)

theorem MemberName.unique {Ty : Type*} {table : List (Text × Ty)} {t t' : Ty}
    {input body body' : Text} (h : MemberName table t input body)
    (h' : MemberName table t' input body') : t = t' ∧ body = body' := by
  obtain ⟨ws, key, rest, i, hws, hkey, hfind, rfl, hcolon⟩ := h
  obtain ⟨ws', key', rest', i', hws', hkey', hfind', heq, hcolon'⟩ := h'
  have hquote : space < quote := by decide
  have htext : Next quote (ws ++ quote :: (key ++ quote :: rest)) _ := ⟨ws', hws', heq⟩
  have hrest := (Next.unique ⟨ws, hws, rfl⟩ htext hquote hquote).2
  have hread := hkey.readString rest
  rw [hrest, hkey'.readString rest'] at hread
  obtain ⟨hkeys, hrests⟩ := Prod.mk.inj (Except.ok.inj hread)
  subst hkeys
  rw [(List.cons.inj hrests).2] at hcolon'
  have hcolon_lt : space < colon := by decide
  refine ⟨?_, (hcolon.unique hcolon' hcolon_lt hcolon_lt).2⟩
  rw [hfind] at hfind'
  exact (Prod.mk.inj (Option.some.inj hfind')).2

theorem MemberName.length_lt {Ty : Type*} {table : List (Text × Ty)} {t : Ty}
    {input body : Text} (h : MemberName table t input body) :
    body.length < input.length := by
  obtain ⟨ws, key, rest, i, -, -, -, rfl, hcolon⟩ := h
  have hlt := hcolon.length_lt
  simp only [List.length_append, List.length_cons]
  omega

section Acceptance

variable {Ty Kind N : Type*} {shape : Ty → Shape Ty Kind}
  {fromChars : Kind → Text → Option (N × ℕ)} {fresh : Ty → Value N}

/-! ## Complete items -/

theorem Complete.length_lt {item : Item Ty} {input rest : Text}
    (h : Complete shape fromChars item input rest) : rest.length < input.length := by
  induction h with
  | space _ _ ih => exact Nat.lt_succ_of_lt ih
  | true =>
    have hpos : 0 < trueText.length := by decide
    rw [List.length_append]
    omega
  | false =>
    have hpos : 0 < falseText.length := by decide
    rw [List.length_append]
    omega
  | number _ _ _ hn =>
    rw [List.length_drop, List.length_cons]
    omega
  | enum | string =>
    simp only [List.length_cons, List.length_append]
    omega
  | emptyRange _ close => exact Nat.lt_succ_of_lt close.length_lt
  | range _ _ _ ih => exact Nat.lt_succ_of_lt ih
  | tuple _ _ ih => exact Nat.lt_succ_of_lt ih
  | members _ _ ih => exact Nat.lt_succ_of_lt ih
  | lastElement _ close ih => exact close.length_lt.trans ih
  | nextElement _ comma _ ihValue ihElements => exact ihElements.trans (comma.length_lt.trans ihValue)
  | lastItem _ close ih => exact close.length_lt.trans ih
  | nextItem _ comma _ ihValue ihItems => exact ihItems.trans (comma.length_lt.trans ihValue)
  | lastMember name _ close ih => exact close.length_lt.trans (ih.trans name.length_lt)
  | nextMember name _ comma _ ihValue ihMembers =>
    exact ihMembers.trans (comma.length_lt.trans (ihValue.trans name.length_lt))

theorem Complete.blank {t : Ty} {ws input rest : Text} (hws : Blank ws)
    (h : Complete shape fromChars (.value t) input rest) :
    Complete shape fromChars (.value t) (ws ++ input) rest := by
  induction ws with
  | nil => exact h
  | cons c ws ih =>
    exact .space (hws c List.mem_cons_self) (ih fun d hd => hws d (List.mem_cons_of_mem c hd))

theorem Cut.blank {t : Ty} {ws input : Text} (hws : Blank ws)
    (h : Cut shape fromChars (.value t) input) : Cut shape fromChars (.value t) (ws ++ input) := by
  induction ws with
  | nil => exact h
  | cons c ws ih =>
    exact .space (hws c List.mem_cons_self) (ih fun d hd => hws d (List.mem_cons_of_mem c hd))

variable (shape fromChars) in
/-- A text that is accepted, and what is left of it. -/
def Accepted (item : Item Ty) (input rest : Text) : Prop :=
  Complete shape fromChars item input rest ∨ rest = [] ∧ Cut shape fromChars item input

theorem Accepted.blank {t : Ty} {ws input rest : Text} (hws : Blank ws)
    (h : Accepted shape fromChars (.value t) input rest) :
    Accepted shape fromChars (.value t) (ws ++ input) rest :=
  h.imp (Complete.blank hws) (And.imp_right (Cut.blank hws))

/-- The first element of a range, after whitespace. -/
theorem Accepted.blank_elements {element : Ty} {ws input rest : Text} (hws : Blank ws)
    (h : Accepted shape fromChars (.elements element) input rest) :
    Accepted shape fromChars (.elements element) (ws ++ input) rest := by
  rcases h with h | ⟨rfl, h⟩
  · left
    cases h with
    | lastElement value close => exact .lastElement (value.blank hws) close
    | nextElement value comma elements => exact .nextElement (value.blank hws) comma elements
  · right
    refine ⟨rfl, ?_⟩
    cases h with
    | elementEnds value => exact .elementEnds (value.blank hws)
    | elementCut value => exact .elementCut (value.blank hws)
    | nextElement value comma elements => exact .nextElement (value.blank hws) comma elements

/-! ## Only accepted texts are read -/

variable (shape fromChars fresh) in
/-- The part of the structurer that reads an item. -/
def readItem (fuel i : ℕ) :
    Item Ty → Text → Value N → Except Failure (Text × Value N)
  | .value t => readValue shape fromChars fresh fuel t
  | .elements element => readElements shape fromChars fresh fuel element
  | .items first rest => readItems shape fromChars fresh fuel i first rest
  | .members table => readMembers shape fromChars fresh fuel table

theorem readBool_ok {input rest : Text} {y : Value N} (h : readBool input = .ok (rest, y)) :
    input = trueText ++ rest ∨ input = falseText ++ rest := by
  rw [readBool] at h
  split_ifs at h with htrue hfalse
  · cases h
    obtain ⟨rest, rfl⟩ := List.isPrefixOf_iff_prefix.mp htrue
    exact .inl rfl
  · cases h
    obtain ⟨rest, rfl⟩ := List.isPrefixOf_iff_prefix.mp hfalse
    exact .inr rfl
  · cases h

theorem readNumber_ok {kind : Kind} {input rest : Text} {y : Value N}
    (h : readNumber fromChars kind input = .ok (rest, y)) :
    ∃ x n, fromChars kind input = some (x, n) ∧ 0 < n ∧ rest = input.drop n ∧ y = .number x := by
  rw [readNumber] at h
  split at h
  · next x n heq =>
    split_ifs at h with hn
    · cases h
      exact ⟨x, n, heq, hn, rfl, rfl⟩
    · cases h
  · cases h

theorem readEnum_ok {table : List (Text × ℕ)} {input rest : Text} {y : Value N}
    (h : readEnum table input = .ok (rest, y)) :
    ∃ key x, IsString key ∧ (key, x) ∈ table ∧ input = quote :: (key ++ quote :: rest) := by
  rw [readEnum] at h
  split at h
  · cases h
  · next key mid hread =>
    obtain ⟨hkey, heq⟩ := readString_ok hread
    split at h
    · cases h
    · next p hfind =>
      cases h
      have hp : p.1 = key := by simpa using List.find?_some hfind
      exact ⟨key, p.2, hkey, hp ▸ List.mem_of_find?_eq_some hfind, heq⟩

theorem readText_ok {input rest : Text} {y : Value N} (h : readText input = .ok (rest, y)) :
    ∃ str, IsString str ∧ input = quote :: (str ++ quote :: rest) := by
  rw [readText] at h
  split at h
  · cases h
  · next str mid hread =>
    cases h
    obtain ⟨hstr, heq⟩ := readString_ok hread
    exact ⟨str, hstr, heq⟩

variable (shape fromChars fresh) in
/-- With so much fuel, only what is accepted is read. -/
def Sound (fuel : ℕ) : Prop :=
  ∀ i item input x rest y, readItem shape fromChars fresh fuel i item input x = .ok (rest, y) →
    Accepted shape fromChars item input rest

theorem Sound.value {fuel : ℕ} (hsound : Sound shape fromChars fresh fuel) {t : Ty}
    {input rest : Text} {x y : Value N}
    (h : readValue shape fromChars fresh (fuel + 1) t input x = .ok (rest, y)) :
    Accepted shape fromChars (.value t) input rest := by
  rw [readValue] at h
  split at h
  · cases h
  next input' hskip =>
  obtain ⟨ws, c, cs, hws, rfl, rfl, hc⟩ := skipWhitespace_ok hskip
  refine Accepted.blank hws ?_
  split at h
  · next hshape =>
    rcases readBool_ok h with heq | heq
    · rw [heq]
      exact .inl (.true hshape)
    · rw [heq]
      exact .inl (.false hshape)
  · next kind hshape =>
    obtain ⟨n, k, hn, hk, rfl, -⟩ := readNumber_ok h
    exact .inl (.number hshape hc hn hk)
  · next table hshape =>
    obtain ⟨key, n, hkey, hmem, heq⟩ := readEnum_ok h
    rw [heq]
    exact .inl (.enum hshape hkey hmem)
  · next hshape =>
    obtain ⟨str, hstr, heq⟩ := readText_ok h
    rw [heq]
    exact .inl (.string hshape hstr)
  · next element hshape =>
    split_ifs at h with hopen
    swap
    · cases h
    cases hopen
    rw [List.tail_cons] at h
    split at h
    · cases h
    next input hskip =>
    obtain ⟨ws, d, ds, hws, rfl, rfl, hd⟩ := skipWhitespace_ok hskip
    split_ifs at h with hclose
    · cases hclose
      cases h
      exact .inl (.emptyRange hshape ⟨ws, hws, rfl⟩)
    · have hopen : ∀ rest, ¬ Next closeBracket (ws ++ d :: ds) rest := fun rest hnext =>
        hclose (congrArg some (Next.unique ⟨ws, hws, rfl⟩ hnext hd (by decide)).1)
      exact (Accepted.blank_elements hws (hsound 0 (.elements element) _ _ _ _ h)).imp
        (.range hshape hopen) (And.imp_right (.range hshape hopen))
  · next first more hshape =>
    split_ifs at h with hopen
    swap
    · cases h
    cases hopen
    exact (hsound 0 (.items first more) _ _ _ _ h).imp
      (.tuple hshape) (And.imp_right (.tuple hshape))
  · next table hshape =>
    split_ifs at h with hopen
    swap
    · cases h
    cases hopen
    exact (hsound 0 (.members table) _ _ _ _ h).imp
      (.members hshape) (And.imp_right (.members hshape))

/-- A value before more of the text is complete. -/
theorem Accepted.complete {item : Item Ty} {input rest : Text}
    (h : Accepted shape fromChars item input rest) (hrest : rest ≠ []) :
    Complete shape fromChars item input rest :=
  h.resolve_right fun hcut => hrest hcut.1

theorem Sound.elements {fuel : ℕ} (hsound : Sound shape fromChars fresh fuel) {element : Ty}
    {input rest : Text} {x y : Value N}
    (h : readElements shape fromChars fresh (fuel + 1) element input x = .ok (rest, y)) :
    Accepted shape fromChars (.elements element) input rest := by
  rw [readElements] at h
  split at h
  · cases h
  · next y' hvalue =>
    cases h
    rcases hsound 0 (.value element) _ _ _ _ hvalue with hvalue | ⟨-, hvalue⟩
    · exact .inr ⟨rfl, .elementEnds hvalue⟩
    · exact .inr ⟨rfl, .elementCut hvalue⟩
  · next mid y' hmid hvalue =>
    have hvalue := (hsound 0 (.value element) _ _ _ _ hvalue).complete hmid
    split at h
    · cases h
    next input' hskip =>
    split_ifs at h with hcomma hclose
    · have hnext := (next_of_skipWhitespace hskip hcomma).2
      exact (hsound 0 (.elements element) _ _ _ _ h).imp
        (.nextElement hvalue hnext) (And.imp_right (.nextElement hvalue hnext))
    · cases h
      exact .inl (.lastElement hvalue (next_of_skipWhitespace hskip hclose).2)
    · cases h

theorem Sound.items {fuel : ℕ} (hsound : Sound shape fromChars fresh fuel) {i : ℕ} {t : Ty}
    {ts : List Ty} {input rest : Text} {x y : Value N}
    (h : readItems shape fromChars fresh (fuel + 1) i t ts input x = .ok (rest, y)) :
    Accepted shape fromChars (.items t ts) input rest := by
  rw [readItems.eq_def] at h
  simp only at h
  split at h
  · cases h
  · next y' hvalue =>
    cases h
    rcases hsound 0 (.value t) _ _ _ _ hvalue with hvalue | ⟨-, hvalue⟩
    · exact .inr ⟨rfl, .itemEnds hvalue⟩
    · exact .inr ⟨rfl, .itemCut hvalue⟩
  · next mid y' hmid hvalue =>
    have hvalue := (hsound 0 (.value t) _ _ _ _ hvalue).complete hmid
    split at h
    · cases h
    next input' hskip =>
    cases ts with
    | nil =>
      simp only at h
      split_ifs at h with hclose
      swap
      · cases h
      cases h
      exact .inl (.lastItem hvalue (next_of_skipWhitespace hskip hclose).2)
    | cons t' ts =>
      simp only at h
      split_ifs at h with hcomma
      swap
      · cases h
      have hnext := (next_of_skipWhitespace hskip hcomma).2
      exact (hsound (i + 1) (.items t' ts) _ _ _ _ h).imp
        (.nextItem hvalue hnext) (And.imp_right (.nextItem hvalue hnext))

theorem Sound.members {fuel : ℕ} (hsound : Sound shape fromChars fresh fuel)
    {table : List (Text × Ty)} {input rest : Text} {x y : Value N}
    (h : readMembers shape fromChars fresh (fuel + 1) table input x = .ok (rest, y)) :
    Accepted shape fromChars (.members table) input rest := by
  rw [readMembers] at h
  split at h
  · cases h
  next input' hskip =>
  obtain ⟨ws, c, cs, hws, rfl, rfl, -⟩ := skipWhitespace_ok hskip
  split at h
  · cases h
  next key rest' hread =>
  obtain ⟨hkey, heq⟩ := readString_ok hread
  split at h
  · cases h
  next i t hfind =>
  split at h
  · cases h
  next body hcolon =>
  split_ifs at h with hhead
  swap
  · cases h
  have hname : MemberName table t (ws ++ c :: cs) body.tail :=
    ⟨ws, key, rest'.tail, i, hws, hkey, hfind, by rw [heq], (next_of_skipWhitespace hcolon hhead).2⟩
  split at h
  · cases h
  · next y' hvalue =>
    cases h
    rcases hsound 0 (.value t) _ _ _ _ hvalue with hvalue | ⟨-, hvalue⟩
    · exact .inr ⟨rfl, .memberEnds hname hvalue⟩
    · exact .inr ⟨rfl, .memberCut hname hvalue⟩
  · next mid y' hmid hvalue =>
    have hvalue := (hsound 0 (.value t) _ _ _ _ hvalue).complete hmid
    split at h
    · cases h
    next input' hskip' =>
    split_ifs at h with hcomma hclose
    · have hnext := (next_of_skipWhitespace hskip' hcomma).2
      exact (hsound 0 (.members table) _ _ _ _ h).imp
        (.nextMember hname hvalue hnext) (And.imp_right (.nextMember hname hvalue hnext))
    · cases h
      exact .inl (.lastMember hname hvalue (next_of_skipWhitespace hskip' hclose).2)
    · cases h

theorem sound (fuel : ℕ) : Sound shape fromChars fresh fuel := by
  induction fuel with
  | zero => exact fun i item input x rest y h => by cases item <;> cases h
  | succ fuel ih =>
    intro i item input x rest y h
    cases item with
    | value t => exact ih.value h
    | elements element => exact ih.elements h
    | items t ts => exact ih.items h
    | members table => exact ih.members h

/-! ## Accepted texts are read -/

theorem readValue_blank {fuel : ℕ} {t : Ty} {ws : Text} (hws : Blank ws) (input : Text)
    (x : Value N) : readValue shape fromChars fresh fuel t (ws ++ input) x =
      readValue shape fromChars fresh fuel t input x := by
  cases fuel with
  | zero => rfl
  | succ fuel => rw [readValue, readValue, skipWhitespace_blank hws]

theorem readElements_blank {fuel : ℕ} {element : Ty} {ws : Text} (hws : Blank ws) (input : Text)
    (x : Value N) : readElements shape fromChars fresh fuel element (ws ++ input) x =
      readElements shape fromChars fresh fuel element input x := by
  cases fuel with
  | zero => rfl
  | succ fuel => rw [readElements, readElements, readValue_blank hws]

theorem readElements_ends {fuel : ℕ} {element : Ty} {input : Text} {y : Value N}
    (hvalue : readValue shape fromChars fresh fuel element input (fresh element) = .ok ([], y))
    (x : Value N) : readElements shape fromChars fresh (fuel + 1) element input x =
      .ok ([], x.push y) := by
  rw [readElements, hvalue]

theorem readElements_continues {fuel : ℕ} {element : Ty} {c : UInt8} {input mid rest : Text}
    {y : Value N}
    (hvalue : readValue shape fromChars fresh fuel element input (fresh element) = .ok (mid, y))
    (hnext : Next c mid rest) (hc : space < c) (x : Value N) :
    readElements shape fromChars fresh (fuel + 1) element input x =
      if c = comma then readElements shape fromChars fresh fuel element rest (x.push y)
      else if c = closeBracket then .ok (rest, x.push y)
      else fail .unexpectedSymbol (c :: rest) := by
  obtain ⟨d, ds, rfl⟩ := hnext.eq_cons
  rw [readElements, hvalue]
  simp only [hnext.skipWhitespace hc, List.head?_cons, Option.some.injEq, List.tail_cons]

theorem readItems_ends {fuel i : ℕ} {t : Ty} {input : Text} {x y : Value N}
    (hvalue : readValue shape fromChars fresh fuel t input (x.item i) = .ok ([], y))
    (ts : List Ty) : readItems shape fromChars fresh (fuel + 1) i t ts input x =
      .ok ([], x.setItem i y) := by
  rw [readItems.eq_def]
  simp only [hvalue]

theorem readItems_last {fuel i : ℕ} {t : Ty} {input mid rest : Text} {x y : Value N}
    (hvalue : readValue shape fromChars fresh fuel t input (x.item i) = .ok (mid, y))
    (hclose : Next closeBracket mid rest) :
    readItems shape fromChars fresh (fuel + 1) i t [] input x = .ok (rest, x.setItem i y) := by
  obtain ⟨d, ds, rfl⟩ := hclose.eq_cons
  rw [readItems.eq_def]
  simp only [hvalue, hclose.skipWhitespace (by decide), List.head?_cons, List.tail_cons, if_pos]

theorem readItems_next {fuel i : ℕ} {t t' : Ty} {ts : List Ty} {input mid rest : Text}
    {x y : Value N}
    (hvalue : readValue shape fromChars fresh fuel t input (x.item i) = .ok (mid, y))
    (hcomma : Next comma mid rest) :
    readItems shape fromChars fresh (fuel + 1) i t (t' :: ts) input x =
      readItems shape fromChars fresh fuel (i + 1) t' ts rest (x.setItem i y) := by
  obtain ⟨d, ds, rfl⟩ := hcomma.eq_cons
  rw [readItems.eq_def]
  simp only [hvalue, hcomma.skipWhitespace (by decide), List.head?_cons, List.tail_cons, if_pos]

variable (shape fromChars fresh) in
/-- The number of a member in the table, with its name read. -/
theorem MemberName.readMembers {table : List (Text × Ty)} {t : Ty} {input body : Text}
    (hname : MemberName table t input body) (fuel : ℕ) (x : Value N) :
    ∃ i, (∀ y, readValue shape fromChars fresh fuel t body (x.item i) = .ok ([], y) →
        readMembers shape fromChars fresh (fuel + 1) table input x = .ok ([], x.setItem i y)) ∧
      ∀ mid y c rest, readValue shape fromChars fresh fuel t body (x.item i) = .ok (mid, y) →
        Next c mid rest → space < c →
        readMembers shape fromChars fresh (fuel + 1) table input x =
          if c = comma then readMembers shape fromChars fresh fuel table rest (x.setItem i y)
          else if c = closeBrace then .ok (rest, x.setItem i y)
          else fail .unexpectedSymbol (c :: rest) := by
  obtain ⟨ws, key, rest', i, hws, hkey, hfind, rfl, hcolon⟩ := hname
  have hquote : skipWhitespace (ws ++ quote :: (key ++ quote :: rest')) =
      .ok (quote :: (key ++ quote :: rest')) := Next.skipWhitespace ⟨ws, hws, rfl⟩ (by decide)
  refine ⟨i, fun y hvalue => ?_, fun mid y c rest hvalue hnext hc => ?_⟩
  · rw [Json.readMembers, hquote]
    simp only [hkey.readString, hfind, List.tail_cons, hcolon.skipWhitespace (by decide),
      List.head?_cons, if_pos, hvalue]
  · obtain ⟨d, ds, rfl⟩ := hnext.eq_cons
    rw [Json.readMembers, hquote]
    simp only [hkey.readString, hfind, List.tail_cons, hcolon.skipWhitespace (by decide),
      List.head?_cons, if_pos, hvalue, hnext.skipWhitespace hc, Option.some.injEq]

/-- Fuel that suffices to read an item. -/
def Item.fuel : Item Ty → Text → ℕ
  | .value _, input => 2 * input.length + 1
  | _, input => 2 * input.length + 2

variable (shape fromChars fresh) in
/-- The text is read, whatever is there to read into. -/
def Reads (item : Item Ty) (input rest : Text) : Prop :=
  ∀ fuel i x, item.fuel input ≤ fuel →
    ∃ y, readItem shape fromChars fresh fuel i item input x = .ok (rest, y)

theorem Reads.space {t : Ty} {c : UInt8} {input rest : Text} (hc : c ≤ space)
    (h : Reads shape fromChars fresh (.value t) input rest) :
    Reads shape fromChars fresh (.value t) (c :: input) rest := by
  intro fuel i x hfuel
  simp only [Item.fuel, List.length_cons] at hfuel
  obtain ⟨y, hy⟩ := h fuel i x (by simp only [Item.fuel]; omega)
  have hblank : Blank [c] := fun d hd => List.mem_singleton.mp hd ▸ hc
  exact ⟨y, (readValue_blank hblank input x).trans hy⟩

/-- A value that begins with a symbol or a digit. -/
theorem Reads.of_readValue {t : Ty} {c : UInt8} {input rest : Text}
    (h : ∀ fuel x, 2 * input.length + 2 ≤ fuel →
      ∃ y, readValue shape fromChars fresh (fuel + 1) t (c :: input) x = .ok (rest, y)) :
    Reads shape fromChars fresh (.value t) (c :: input) rest := by
  intro fuel i x hfuel
  simp only [Item.fuel, List.length_cons] at hfuel
  cases fuel with
  | zero => omega
  | succ fuel => exact h fuel x (by omega)

theorem Reads.bool {t : Ty} (hshape : shape t = .bool) (rest : Text) :
    Reads shape fromChars fresh (.value t) (trueText ++ rest) rest ∧
      Reads shape fromChars fresh (.value t) (falseText ++ rest) rest := by
  constructor
  · refine Reads.of_readValue fun fuel x _ => ⟨.bool true, ?_⟩
    rw [readValue, skipWhitespace_of_lt (by decide), hshape]
    rfl
  · refine Reads.of_readValue fun fuel x _ => ⟨.bool false, ?_⟩
    rw [readValue, skipWhitespace_of_lt (by decide), hshape]
    rfl

theorem Reads.number {t : Ty} {kind : Kind} {c : UInt8} {input : Text} {n : N} {k : ℕ}
    (hshape : shape t = .number kind) (hc : Json.space < c)
    (hn : fromChars kind (c :: input) = some (n, k)) (hk : 0 < k) :
    Reads shape fromChars fresh (.value t) (c :: input) ((c :: input).drop k) := by
  refine Reads.of_readValue fun fuel x _ => ⟨.number n, ?_⟩
  rw [readValue, skipWhitespace_of_lt hc, hshape]
  simp only [readNumber, hn, if_pos hk]

theorem readEnum_of_mem {table : List (Text × ℕ)} {key : Text} {n : ℕ} (hkey : IsString key)
    (hmem : (key, n) ∈ table) (rest : Text) :
    ∃ y : Value N, readEnum table (quote :: (key ++ quote :: rest)) = .ok (rest, y) := by
  have hfind : (table.find? fun p => p.1 = key).isSome :=
    List.find?_isSome.mpr ⟨(key, n), hmem, decide_eq_true rfl⟩
  obtain ⟨p, hp⟩ := Option.isSome_iff_exists.mp hfind
  refine ⟨.enum p.2, ?_⟩
  simp only [readEnum, hkey.readString, hp, List.tail_cons]

theorem Reads.enum {t : Ty} {table : List (Text × ℕ)} {key rest : Text} {n : ℕ}
    (hshape : shape t = .enum table) (hkey : IsString key) (hmem : (key, n) ∈ table) :
    Reads shape fromChars fresh (.value t) (quote :: (key ++ quote :: rest)) rest := by
  refine Reads.of_readValue fun fuel x _ => ?_
  obtain ⟨y, hy⟩ := readEnum_of_mem (N := N) hkey hmem rest
  refine ⟨y, ?_⟩
  rw [readValue, skipWhitespace_of_lt (by decide), hshape]
  exact hy

theorem Reads.string {t : Ty} {str rest : Text} (hshape : shape t = .string)
    (hstr : IsString str) :
    Reads shape fromChars fresh (.value t) (quote :: (str ++ quote :: rest)) rest := by
  refine Reads.of_readValue fun fuel x _ => ⟨.string str, ?_⟩
  rw [readValue, skipWhitespace_of_lt (by decide), hshape]
  simp only [readText, hstr.readString, List.tail_cons]

theorem Reads.emptyRange {t element : Ty} {input rest : Text} (hshape : shape t = .range element)
    (hclose : Next closeBracket input rest) :
    Reads shape fromChars fresh (.value t) (openBracket :: input) rest := by
  refine Reads.of_readValue fun fuel x _ => ⟨x, ?_⟩
  rw [readValue, skipWhitespace_of_lt (by decide), hshape]
  simp only [List.head?_cons, List.tail_cons, hclose.skipWhitespace (by decide), if_pos]

/-- Whitespace has been skipped when an element has been read. -/
theorem skipWhitespace_of_readElements {fuel : ℕ} {element : Ty} {input : Text} {x : Value N}
    {r : Text × Value N} (h : readElements shape fromChars fresh fuel element input x = .ok r) :
    ∃ rest, skipWhitespace input = .ok rest := by
  rcases fuel with _ | _ | fuel
  · cases h
  · cases h
  rw [readElements, readValue] at h
  cases hskip : skipWhitespace input with
  | ok rest => exact ⟨rest, rfl⟩
  | error e =>
    simp only [hskip] at h
    cases h

theorem Reads.range {t element : Ty} {input rest : Text} (hshape : shape t = .range element)
    (hopen : ∀ rest, ¬ Next closeBracket input rest)
    (h : Reads shape fromChars fresh (.elements element) input rest) :
    Reads shape fromChars fresh (.value t) (openBracket :: input) rest := by
  refine Reads.of_readValue fun fuel x hfuel => ?_
  obtain ⟨y, hy⟩ := h fuel 0 x hfuel
  obtain ⟨input', hskip⟩ := skipWhitespace_of_readElements hy
  obtain ⟨ws, c, cs, hws, heq, hinput', hc⟩ := skipWhitespace_ok hskip
  have hhead : input'.head? ≠ some closeBracket := fun hhead =>
    hopen _ (next_of_skipWhitespace hskip hhead).2
  refine ⟨y, ?_⟩
  rw [readValue, skipWhitespace_of_lt (by decide), hshape]
  simp only [List.head?_cons, List.tail_cons, hskip, if_pos, if_neg hhead]
  rw [← readElements_blank hws, ← heq]
  exact hy

theorem Reads.tuple {t first : Ty} {more : List Ty} {input rest : Text}
    (hshape : shape t = .tuple first more)
    (h : Reads shape fromChars fresh (.items first more) input rest) :
    Reads shape fromChars fresh (.value t) (openBracket :: input) rest := by
  refine Reads.of_readValue fun fuel x hfuel => ?_
  obtain ⟨y, hy⟩ := h fuel 0 x hfuel
  refine ⟨y, ?_⟩
  rw [readValue, skipWhitespace_of_lt (by decide), hshape]
  exact hy

theorem Reads.members {t : Ty} {table : List (Text × Ty)} {input rest : Text}
    (hshape : shape t = .members table)
    (h : Reads shape fromChars fresh (.members table) input rest) :
    Reads shape fromChars fresh (.value t) (openBrace :: input) rest := by
  refine Reads.of_readValue fun fuel x hfuel => ?_
  obtain ⟨y, hy⟩ := h fuel 0 x hfuel
  refine ⟨y, ?_⟩
  rw [readValue, skipWhitespace_of_lt (by decide), hshape]
  exact hy

/-- The first part of an item that is not a value is read with the fuel that is left. -/
theorem Reads.of_part {item : Item Ty} {input rest : Text}
    (hfuel : item.fuel input = 2 * input.length + 2)
    (h : ∀ fuel i x, 2 * input.length + 1 ≤ fuel →
      ∃ y, readItem shape fromChars fresh (fuel + 1) i item input x = .ok (rest, y)) :
    Reads shape fromChars fresh item input rest := by
  intro fuel i x hle
  cases fuel with
  | zero => omega
  | succ fuel => exact h fuel i x (by omega)

theorem Reads.elementEnds {element : Ty} {input : Text}
    (h : Reads shape fromChars fresh (.value element) input []) :
    Reads shape fromChars fresh (.elements element) input [] := by
  refine Reads.of_part rfl fun fuel i x hfuel => ?_
  obtain ⟨y, hy⟩ := h fuel i (fresh element) hfuel
  exact ⟨x.push y, readElements_ends hy x⟩

theorem Reads.lastElement {element : Ty} {input mid rest : Text}
    (h : Reads shape fromChars fresh (.value element) input mid)
    (hclose : Next closeBracket mid rest) :
    Reads shape fromChars fresh (.elements element) input rest := by
  refine Reads.of_part rfl fun fuel i x hfuel => ?_
  obtain ⟨y, hy⟩ := h fuel i (fresh element) hfuel
  exact ⟨x.push y, readElements_continues hy hclose (by decide) x⟩

theorem Reads.nextElement {element : Ty} {input mid input' rest : Text}
    (h : Reads shape fromChars fresh (.value element) input mid)
    (hlt : mid.length ≤ input.length) (hcomma : Next comma mid input')
    (h' : Reads shape fromChars fresh (.elements element) input' rest) :
    Reads shape fromChars fresh (.elements element) input rest := by
  refine Reads.of_part rfl fun fuel i x hfuel => ?_
  have hlt' := hcomma.length_lt
  obtain ⟨y, hy⟩ := h fuel i (fresh element) hfuel
  obtain ⟨z, hz⟩ := h' fuel i (x.push y) (by simp only [Item.fuel]; omega)
  exact ⟨z, (readElements_continues hy hcomma (by decide) x).trans hz⟩

theorem Reads.itemEnds {t : Ty} {ts : List Ty} {input : Text}
    (h : Reads shape fromChars fresh (.value t) input []) :
    Reads shape fromChars fresh (.items t ts) input [] := by
  refine Reads.of_part rfl fun fuel i x hfuel => ?_
  obtain ⟨y, hy⟩ := h fuel i (x.item i) hfuel
  exact ⟨x.setItem i y, readItems_ends hy ts⟩

theorem Reads.lastItem {t : Ty} {input mid rest : Text}
    (h : Reads shape fromChars fresh (.value t) input mid) (hclose : Next closeBracket mid rest) :
    Reads shape fromChars fresh (.items t []) input rest := by
  refine Reads.of_part rfl fun fuel i x hfuel => ?_
  obtain ⟨y, hy⟩ := h fuel i (x.item i) hfuel
  exact ⟨x.setItem i y, readItems_last hy hclose⟩

theorem Reads.nextItem {t t' : Ty} {ts : List Ty} {input mid input' rest : Text}
    (h : Reads shape fromChars fresh (.value t) input mid)
    (hlt : mid.length ≤ input.length) (hcomma : Next comma mid input')
    (h' : Reads shape fromChars fresh (.items t' ts) input' rest) :
    Reads shape fromChars fresh (.items t (t' :: ts)) input rest := by
  refine Reads.of_part rfl fun fuel i x hfuel => ?_
  have hlt' := hcomma.length_lt
  obtain ⟨y, hy⟩ := h fuel i (x.item i) hfuel
  obtain ⟨z, hz⟩ := h' fuel (i + 1) (x.setItem i y) (by simp only [Item.fuel]; omega)
  exact ⟨z, (readItems_next hy hcomma).trans hz⟩

theorem Reads.memberEnds {table : List (Text × Ty)} {t : Ty} {input body : Text}
    (hname : MemberName table t input body)
    (h : Reads shape fromChars fresh (.value t) body []) :
    Reads shape fromChars fresh (.members table) input [] := by
  refine Reads.of_part rfl fun fuel i x hfuel => ?_
  have hlt := hname.length_lt
  obtain ⟨j, hends, -⟩ := hname.readMembers shape fromChars fresh fuel x
  obtain ⟨y, hy⟩ := h fuel i (x.item j) (by simp only [Item.fuel]; omega)
  exact ⟨x.setItem j y, hends y hy⟩

theorem Reads.lastMember {table : List (Text × Ty)} {t : Ty} {input body mid rest : Text}
    (hname : MemberName table t input body)
    (h : Reads shape fromChars fresh (.value t) body mid) (hclose : Next closeBrace mid rest) :
    Reads shape fromChars fresh (.members table) input rest := by
  refine Reads.of_part rfl fun fuel i x hfuel => ?_
  have hlt := hname.length_lt
  obtain ⟨j, -, hcontinues⟩ := hname.readMembers shape fromChars fresh fuel x
  obtain ⟨y, hy⟩ := h fuel i (x.item j) (by simp only [Item.fuel]; omega)
  exact ⟨x.setItem j y, hcontinues mid y closeBrace rest hy hclose (by decide)⟩

theorem Reads.nextMember {table : List (Text × Ty)} {t : Ty} {input body mid input' rest : Text}
    (hname : MemberName table t input body)
    (h : Reads shape fromChars fresh (.value t) body mid)
    (hlt : mid.length ≤ body.length) (hcomma : Next comma mid input')
    (h' : Reads shape fromChars fresh (.members table) input' rest) :
    Reads shape fromChars fresh (.members table) input rest := by
  refine Reads.of_part rfl fun fuel i x hfuel => ?_
  have hlt' := hcomma.length_lt
  have hlt'' := hname.length_lt
  obtain ⟨j, -, hcontinues⟩ := hname.readMembers shape fromChars fresh fuel x
  obtain ⟨y, hy⟩ := h fuel i (x.item j) (by simp only [Item.fuel]; omega)
  obtain ⟨z, hz⟩ := h' fuel i (x.setItem j y) (by simp only [Item.fuel]; omega)
  exact ⟨z, (hcontinues mid y comma input' hy hcomma (by decide)).trans hz⟩

theorem Complete.reads {item : Item Ty} {input rest : Text}
    (h : Complete shape fromChars item input rest) :
    Reads shape fromChars fresh item input rest := by
  induction h with
  | space hc _ ih => exact ih.space hc
  | true hshape => exact (Reads.bool hshape _).1
  | false hshape => exact (Reads.bool hshape _).2
  | number hshape hc hn hk => exact .number hshape hc hn hk
  | enum hshape hkey hmem => exact .enum hshape hkey hmem
  | string hshape hstr => exact .string hshape hstr
  | emptyRange hshape hclose => exact .emptyRange hshape hclose
  | range hshape hopen _ ih => exact ih.range hshape hopen
  | tuple hshape _ ih => exact ih.tuple hshape
  | members hshape _ ih => exact ih.members hshape
  | lastElement _ hclose ih => exact ih.lastElement hclose
  | nextElement hvalue hcomma _ ih ih' => exact ih.nextElement hvalue.length_lt.le hcomma ih'
  | lastItem _ hclose ih => exact ih.lastItem hclose
  | nextItem hvalue hcomma _ ih ih' => exact ih.nextItem hvalue.length_lt.le hcomma ih'
  | lastMember hname _ hclose ih => exact ih.lastMember hname hclose
  | nextMember hname hvalue hcomma _ ih ih' =>
    exact ih.nextMember hname hvalue.length_lt.le hcomma ih'

theorem Cut.reads {item : Item Ty} {input : Text} (h : Cut shape fromChars item input) :
    Reads shape fromChars fresh item input [] := by
  induction h with
  | space hc _ ih => exact ih.space hc
  | range hshape hopen _ ih => exact ih.range hshape hopen
  | tuple hshape _ ih => exact ih.tuple hshape
  | members hshape _ ih => exact ih.members hshape
  | elementEnds hvalue => exact hvalue.reads.elementEnds
  | elementCut _ ih => exact ih.elementEnds
  | nextElement hvalue hcomma _ ih =>
    exact hvalue.reads.nextElement hvalue.length_lt.le hcomma ih
  | itemEnds hvalue => exact hvalue.reads.itemEnds
  | itemCut _ ih => exact ih.itemEnds
  | nextItem hvalue hcomma _ ih => exact hvalue.reads.nextItem hvalue.length_lt.le hcomma ih
  | memberEnds hname hvalue => exact hvalue.reads.memberEnds hname
  | memberCut hname _ ih => exact ih.memberEnds hname
  | nextMember hname hvalue hcomma _ ih =>
    exact hvalue.reads.nextMember hname hvalue.length_lt.le hcomma ih

end Acceptance

end Fimbulwinter.Json
