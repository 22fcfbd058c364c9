import Fimbulwinter.HeapVector
import Fimbulwinter.PageQueue
import Mathlib.Data.Fintype.Basic

/-! # Runs of `core::container::PageQueue`

While reservations find room and pages are released when nobody needs them, the items of
every producer are popped once each and in the order of their pushes. -/
namespace Fimbulwinter.PageQueue

variable {A P T : Type*} [DecidableEq A] [DecidableEq P] {s : State A P T} {a b : A} {p : P}

/-- The ticket that a producer holds for a page. -/
def Producer.ticketAt (a : A) : Producer A T → Option (Ticket T)
  | .ticket header t => if header = a then some t else none
  | .idle | .loadHeader _ | .loadWrite _ _ | .loadRead _ _ _ | .exchange _ _ _ _ | .allocate _ _
  | .replace _ _ _ => none

/-- The producer may reserve a slot in a page. -/
def Producer.reserving (a : A) : Producer A T → Bool
  | .loadWrite _ header | .loadRead _ header _ | .exchange _ header _ _ => header = a
  | .idle | .loadHeader _ | .ticket _ _ | .allocate _ _ | .replace _ _ _ => false

/-- The item that is reserved for and not published yet. -/
def Producer.pending : Producer A T → List T
  | .ticket _ (.construct item _ _ _) | .ticket _ (.checkin item _ _ _) => [item]
  | .idle | .loadHeader _ | .loadWrite _ _ | .loadRead _ _ _ | .exchange _ _ _ _ | .allocate _ _
  | .replace _ _ _ => []

/-- What is left of the pop from a page. -/
def Consumer.popAt (a : A) : Consumer A T → Pop T
  | .pop header left => if header = a then left else .idle
  | .idle | .loadRead _ _ | .loadWrite _ _ _ | .release _ _ => .idle

def State.reservedAt (s : State A P T) (a : A) : List (P × T) :=
  match s.pages a with
  | none => []
  | some r => r.reserved

/-- All reservations, page after page. -/
def State.total (s : State A P T) : List (P × T) := s.released ++ s.chain.flatMap s.reservedAt

/-- What has been taken from the oldest page. -/
def State.takenFrom (s : State A P T) : List (P × T) :=
  match s.chain with
  | [] => []
  | a :: _ =>
    match s.pages a with
    | none => []
    | some r => r.reserved.take r.taken

/-- The consumer works on the oldest page, and releases it only if there is another one. -/
def ConsumerHolds (s : State A P T) : Consumer A T → Prop
  | .idle => True
  | .loadRead header nextHeader | .release header nextHeader =>
    ∃ rest, s.chain = header :: nextHeader :: rest
  | .loadWrite header nextHeader slot =>
    (∃ rest, s.chain = header :: nextHeader :: rest) ∧
      ∀ r, s.pages header = some r → slot = r.readi
  | .pop header _ => s.chain.head? = some header

/-- No page behind the given one has a reservation of the producer. -/
def NotBehind (s : State A P T) (p : P) (a : A) : Prop :=
  ∀ before after, s.chain = before ++ a :: after → ∀ b ∈ after, ∀ x ∈ s.reservedAt b, x.1 ≠ p

/-- Every page is a valid ring that its users may access, and the reservations of each
producer are its pushes, in their order. -/
structure Valid (s : State A P T) : Prop where
  nodup : s.chain.Nodup
  live : ∀ a ∈ s.chain, ∃ r, s.pages a = some r
  rings : ∀ a r, s.pages a = some r →
    r.Valid (fun p => (s.producers p).ticketAt a) (s.consumer.popAt a)
  uses : ∀ p a, (s.producers p).uses a → a ∈ s.chain
  spare : ∀ p item header a, s.producers p = .replace item header a →
    a ∉ s.chain ∧ ∃ capacity, s.pages a = some (.empty capacity)
  distinct : ∀ p q item item' header header' a, s.producers p = .replace item header a →
    s.producers q = .replace item' header' a → p = q
  next : ∀ p item a slot next r, s.producers p = .exchange item a slot next →
    s.pages a = some r → next = wrapReset (slot + 1) r.capacity
  consumer : ConsumerHolds s s.consumer
  untaken : ∀ a ∈ s.chain.tail, ∀ r, s.pages a = some r → r.taken = 0
  behind : ∀ p a, (s.producers p).reserving a → NotBehind s p a
  order : ∀ p, s.total.filter (fun x => x.1 = p) =
    s.pushed.filter (fun x => x.1 = p) ++ (s.producers p).pending.map (Prod.mk p)
  popped : s.popped = (s.released ++ s.takenFrom).map Prod.snd

theorem initial_valid (reserve : ℕ → ℕ) (first : Option (A × ℕ)) :
    Valid (State.initial reserve first : State A P T) := by
  rcases first with _ | ⟨a, capacity⟩
  · constructor <;> simp [State.initial, Producer.uses, Producer.reserving, ConsumerHolds,
      State.total, State.takenFrom, Producer.pending]
  · constructor
    case rings =>
      intro b r hr
      by_cases hb : b = a
      · subst hb
        simp only [State.initial, Function.update_self, Option.some.injEq] at hr
        subst hr
        exact Ring.empty_valid _
      · simp [State.initial, Function.update_of_ne hb] at hr
    all_goals simp [State.initial, Producer.uses, Producer.reserving, ConsumerHolds,
      State.total, State.takenFrom, State.reservedAt, Producer.pending, Ring.empty]

/-! ## Steps of the producers -/

omit [DecidableEq A] [DecidableEq P] in
theorem reservedAt_of_some {r : Ring P T} (h : s.pages a = some r) :
    s.reservedAt a = r.reserved := by
  rw [State.reservedAt, h]

omit [DecidableEq A] [DecidableEq P] in
/-- Nothing is behind the last page. -/
theorem notBehind_of_getLast? (hnodup : s.chain.Nodup) (ha : s.chain.getLast? = some a) :
    NotBehind s p a := by
  intro before after hchain b hb
  have hne : after ≠ [] := List.ne_nil_of_mem hb
  rw [hchain, List.getLast?_append_cons, List.getLast?_cons, List.getLast?_eq_some_getLast hne,
    Option.getD_some, Option.some.injEq] at ha
  have hmem : a ∈ after := ha ▸ List.getLast_mem hne
  rw [hchain] at hnodup
  exact absurd hmem (List.nodup_cons.mp (List.nodup_append.mp hnodup).2.1).1

omit [DecidableEq A] in
theorem set_producers (s : State A P T) (p : P) (producer : Producer A T) (q : P) :
    (s.set p producer).producers q = if q = p then producer else s.producers q :=
  Function.update_apply ..

/-- A producer that keeps its ticket. -/
theorem set_ticketAt {producer : Producer A T}
    (hticket : producer.ticketAt a = (s.producers p).ticketAt a) :
    (fun q => ((s.set p producer).producers q).ticketAt a) = fun q => (s.producers q).ticketAt a := by
  funext q
  rw [set_producers]
  split_ifs with hq
  · rw [hq, hticket]
  · rfl

omit [DecidableEq A] [DecidableEq P] in
/-- The consumer keeps its place when pages are opened and the oldest one keeps its read index. -/
theorem ConsumerHolds.extend {s' : State A P T} {consumer : Consumer A T} {opened : List A}
    (h : ConsumerHolds s consumer) (hchain : s'.chain = s.chain ++ opened)
    (hreadi : ∀ b ∈ s.chain, ∀ r', s'.pages b = some r' →
      ∃ r, s.pages b = some r ∧ r'.readi = r.readi) : ConsumerHolds s' consumer := by
  cases consumer with
  | idle => exact h
  | loadRead header nextHeader | release header nextHeader =>
    obtain ⟨rest, hrest⟩ := h
    exact ⟨rest ++ opened, by rw [hchain, hrest]; rfl⟩
  | loadWrite header nextHeader slot =>
    obtain ⟨⟨rest, hrest⟩, hslot⟩ := h
    refine ⟨⟨rest ++ opened, by rw [hchain, hrest]; rfl⟩, fun r' hr' => ?_⟩
    obtain ⟨r, hr, heq⟩ := hreadi header (by rw [hrest]; exact List.mem_cons_self) r' hr'
    rw [heq]
    exact hslot r hr
  | pop header left =>
    have hhead : s.chain.head? = some header := h
    change s'.chain.head? = some header
    rw [hchain, List.head?_append, hhead]
    rfl

/-- Producers that keep their tickets, and go on to pages of the queue. -/
theorem Valid.set (h : Valid s) {producer : Producer A T}
    (hticket : ∀ a, producer.ticketAt a = (s.producers p).ticketAt a)
    (hpending : producer.pending = (s.producers p).pending)
    (huses : ∀ a, producer.uses a → a ∈ s.chain)
    (hspare : ∀ item header a, producer ≠ .replace item header a)
    (hnext : ∀ item a slot next r, producer = .exchange item a slot next →
      s.pages a = some r → next = wrapReset (slot + 1) r.capacity)
    (hbehind : ∀ a, producer.reserving a → NotBehind s p a) : Valid (s.set p producer) := by
  have hproducers := set_producers s p producer
  refine { h with
    rings := ?_, uses := ?_, spare := ?_, distinct := ?_, next := ?_, behind := ?_, order := ?_ }
  · intro a r hr
    rw [set_ticketAt (hticket a)]
    exact h.rings a r hr
  · intro q a hq
    rw [hproducers] at hq
    split_ifs at hq
    · exact huses a hq
    · exact h.uses q a hq
  · intro q item header a hq
    rw [hproducers] at hq
    split_ifs at hq
    · exact absurd hq (hspare item header a)
    · exact h.spare q item header a hq
  · intro q q' item item' header header' a hq hq'
    rw [hproducers] at hq hq'
    split_ifs at hq hq' with hp hp' hp'
    · exact absurd hq (hspare item header a)
    · exact absurd hq (hspare item header a)
    · exact absurd hq' (hspare item' header' a)
    · exact h.distinct q q' item item' header header' a hq hq'
  · intro q item a slot next r hq hr
    rw [hproducers] at hq
    split_ifs at hq
    · exact hnext item a slot next r hq hr
    · exact h.next q item a slot next r hq hr
  · intro q a hq
    rw [hproducers] at hq
    split_ifs at hq with hqp
    · rw [hqp]
      exact hbehind a hq
    · exact h.behind q a hq
  · intro q
    rw [hproducers]
    have horder := h.order q
    split_ifs with hqp
    · rw [hpending, ← hqp]
      exact horder
    · exact horder

omit [DecidableEq P] in
theorem setPage_pages (s : State A P T) (a : A) (r : Ring P T) (b : A) :
    (s.setPage a r).pages b = if b = a then some r else s.pages b :=
  Function.update_apply ..

omit [DecidableEq P] in
theorem setPage_reservedAt (s : State A P T) (a : A) (r : Ring P T) (b : A) :
    (s.setPage a r).reservedAt b = if b = a then r.reserved else s.reservedAt b := by
  rw [State.reservedAt, setPage_pages]
  split_ifs <;> rfl

omit [DecidableEq P] in
theorem takenFrom_setPage {r r' : Ring P T} (hr : s.pages a = some r)
    (htake : r'.reserved.take r'.taken = r.reserved.take r.taken) :
    (s.setPage a r').takenFrom = s.takenFrom := by
  have hchain : (s.setPage a r').chain = s.chain := rfl
  simp only [State.takenFrom, hchain]
  cases s.chain with
  | nil => rfl
  | cons b rest =>
    simp only [setPage_pages]
    by_cases hb : b = a
    · subst hb
      rw [if_pos rfl, hr]
      exact htake
    · rw [if_neg hb]

/-- Reservations are added to one page, behind all other ones of the same producer. -/
theorem total_setPage (hnodup : s.chain.Nodup) (ha : a ∈ s.chain) {r r' : Ring P T}
    (hr : s.pages a = some r) (items : List T)
    (hreserved : r'.reserved = r.reserved ++ items.map (Prod.mk p))
    (hbehind : items = [] ∨ NotBehind s p a) (q : P) :
    (s.setPage a r').total.filter (fun x => x.1 = q) =
      s.total.filter (fun x => x.1 = q) ++ if q = p then items.map (Prod.mk p) else [] := by
  obtain ⟨before, after, hchain⟩ := List.append_of_mem ha
  have hsplit := hnodup
  rw [hchain, List.nodup_append, List.nodup_cons] at hsplit
  obtain ⟨-, ⟨hafter, -⟩, hbefore⟩ := hsplit
  have hsame : ∀ {l : List A}, a ∉ l → l.flatMap (s.setPage a r').reservedAt =
      l.flatMap s.reservedAt := by
    intro l hl
    refine List.flatMap_congr fun b hb => ?_
    rw [setPage_reservedAt, if_neg (ne_of_mem_of_not_mem hb hl)]
  have hnot : a ∉ before := fun hmem => hbefore a hmem a List.mem_cons_self rfl
  have htotal : (s.setPage a r').total = s.released ++ (before.flatMap s.reservedAt ++
      ((r.reserved ++ items.map (Prod.mk p)) ++ after.flatMap s.reservedAt)) := by
    change s.released ++ s.chain.flatMap _ = _
    rw [hchain, List.flatMap_append, List.flatMap_cons, hsame hnot, hsame hafter,
      setPage_reservedAt, if_pos rfl, hreserved]
  have htotal' : s.total = s.released ++ (before.flatMap s.reservedAt ++
      (r.reserved ++ after.flatMap s.reservedAt)) := by
    rw [State.total, hchain, List.flatMap_append, List.flatMap_cons, reservedAt_of_some hr]
  rw [htotal, htotal']
  simp only [List.filter_append, List.append_assoc]
  congr 3
  by_cases hq : q = p
  · subst hq
    have hitems : (items.map (Prod.mk q)).filter (fun x => x.1 = q) = items.map (Prod.mk q) := by
      refine List.filter_eq_self.mpr fun x hx => ?_
      obtain ⟨y, -, rfl⟩ := List.mem_map.mp hx
      simp
    rw [hitems, if_pos rfl]
    rcases hbehind with rfl | hbehind
    · simp
    · have hnone : (after.flatMap s.reservedAt).filter (fun x => x.1 = q) = [] := by
        refine List.filter_eq_nil_iff.mpr fun x hx => ?_
        obtain ⟨b, hb, hx⟩ := List.mem_flatMap.mp hx
        simpa using hbehind before after hchain b hb x hx
      rw [hnone, List.append_nil, List.nil_append]
  · have hitems : (items.map (Prod.mk p)).filter (fun x => x.1 = q) = [] := by
      refine List.filter_eq_nil_iff.mpr fun x hx => ?_
      obtain ⟨y, -, rfl⟩ := List.mem_map.mp hx
      simpa using Ne.symm hq
    rw [hitems, if_neg hq, List.nil_append, List.append_nil]

/-- A producer works on the page that its ticket is for, or gets one. -/
theorem Valid.work (h : Valid s) {producer : Producer A T} {r r' : Ring P T}
    {pushed : List (P × T)} (hr : s.pages a = some r) (ha : a ∈ s.chain)
    (hring : r'.Valid (Function.update (fun q => (s.producers q).ticketAt a) p
      (producer.ticketAt a)) (s.consumer.popAt a))
    (hold : ∀ b, b ≠ a → (s.producers p).ticketAt b = none)
    (hnew : ∀ b, b ≠ a → producer.ticketAt b = none) (hcapacity : r'.capacity = r.capacity)
    (htaken : r'.taken = r.taken) (hreadi : r'.readi = r.readi)
    (huses : ∀ b, producer.uses b → b = a) (hreserving : ∀ b, producer.reserving b = false)
    (hspare : ∀ item header b, producer ≠ .replace item header b) (items : List T)
    (hreserved : r'.reserved = r.reserved ++ items.map (Prod.mk p))
    (hbehind : items = [] ∨ NotBehind s p a)
    (hpushed : ∀ q, s.pushed.filter (fun x => x.1 = q) ++
      (s.producers q).pending.map (Prod.mk q) ++ (if q = p then items.map (Prod.mk p) else []) =
      pushed.filter (fun x => x.1 = q) ++
        (if q = p then producer.pending else (s.producers q).pending).map (Prod.mk q)) :
    Valid { (s.set p producer).setPage a r' with pushed := pushed } := by
  have hproducers := set_producers s p producer
  have hexchange : ∀ item b slot next, producer ≠ .exchange item b slot next := by
    rintro item b slot next rfl
    simpa [Producer.reserving] using hreserving b
  have hpages : ∀ b, ({ (s.set p producer).setPage a r' with pushed := pushed } :
      State A P T).pages b = if b = a then some r' else s.pages b := fun b => setPage_pages ..
  have htotal := fun q => total_setPage h.nodup ha hr items hreserved hbehind q
  constructor
  · exact h.nodup
  · intro b hb
    rw [hpages]
    split_ifs
    · exact ⟨r', rfl⟩
    · exact h.live b hb
  · intro b t ht
    rw [hpages] at ht
    have hsame : (fun q => ((s.set p producer).producers q).ticketAt b) =
        Function.update (fun q => (s.producers q).ticketAt b) p (producer.ticketAt b) := by
      funext q
      rw [hproducers, Function.update_apply]
      split_ifs <;> rfl
    change t.Valid (fun q => ((s.set p producer).producers q).ticketAt b) _
    rw [hsame]
    split_ifs at ht with hb
    · cases ht
      rw [hb]
      exact hring
    · have hupdate : Function.update (fun q => (s.producers q).ticketAt b) p (producer.ticketAt b) =
          fun q => (s.producers q).ticketAt b := by
        rw [Function.update_eq_self_iff, hold b hb, hnew b hb]
      rw [hupdate]
      exact h.rings b t ht
  · intro q b hq
    change ((s.set p producer).producers q).uses b = true at hq
    rw [hproducers] at hq
    split_ifs at hq
    · rw [huses b hq]
      exact ha
    · exact h.uses q b hq
  · intro q item header b hq
    change (s.set p producer).producers q = _ at hq
    rw [hproducers] at hq
    split_ifs at hq
    · exact absurd hq (hspare item header b)
    · obtain ⟨hb, capacity, hpage⟩ := h.spare q item header b hq
      refine ⟨hb, capacity, ?_⟩
      rw [hpages, if_neg (ne_of_mem_of_not_mem ha hb).symm]
      exact hpage
  · intro q q' item item' header header' b hq hq'
    change (s.set p producer).producers q = _ at hq
    change (s.set p producer).producers q' = _ at hq'
    rw [hproducers] at hq hq'
    split_ifs at hq hq' with hp hp' hp'
    · exact absurd hq (hspare item header b)
    · exact absurd hq (hspare item header b)
    · exact absurd hq' (hspare item' header' b)
    · exact h.distinct q q' item item' header header' b hq hq'
  · intro q item b slot next t hq ht
    change (s.set p producer).producers q = _ at hq
    rw [hproducers] at hq
    rw [hpages] at ht
    split_ifs at hq
    · exact absurd hq (hexchange item b slot next)
    · split_ifs at ht with hb
      · cases ht
        rw [hcapacity]
        exact h.next q item b slot next r hq (hb ▸ hr)
      · exact h.next q item b slot next t hq ht
  · refine h.consumer.extend (List.append_nil _).symm fun b _ t ht => ?_
    rw [hpages] at ht
    split_ifs at ht with hb
    · cases ht
      exact ⟨r, hb ▸ hr, hreadi⟩
    · exact ⟨t, ht, rfl⟩
  · intro b hb t ht
    rw [hpages] at ht
    split_ifs at ht with heq
    · cases ht
      rw [htaken]
      exact h.untaken b hb r (heq ▸ hr)
    · exact h.untaken b hb t ht
  · intro q b hq before after hchain c hc x hx
    change ((s.set p producer).producers q).reserving b = true at hq
    change x ∈ (s.setPage a r').reservedAt c at hx
    rw [hproducers] at hq
    split_ifs at hq with hqp
    · rw [hreserving b] at hq
      cases hq
    · rw [setPage_reservedAt] at hx
      split_ifs at hx with hca
      · rw [hreserved, List.mem_append] at hx
        rcases hx with hx | hx
        · refine h.behind q b hq before after hchain c hc x ?_
          rw [reservedAt_of_some (hca ▸ hr)]
          exact hx
        · obtain ⟨y, -, rfl⟩ := List.mem_map.mp hx
          exact Ne.symm hqp
      · exact h.behind q b hq before after hchain c hc x hx
  · intro q
    change (s.setPage a r').total.filter _ = pushed.filter _ ++
      ((s.set p producer).producers q).pending.map _
    rw [htotal q, h.order q, hproducers, hpushed q]
    split_ifs <;> rfl
  · change s.popped = (s.released ++ _).map Prod.snd
    rw [h.popped]
    have htake : r'.reserved.take r'.taken = r.reserved.take r.taken := by
      have hring := h.rings a r hr
      rw [htaken, hreserved, List.take_append_of_le_length (hring.taken_le.trans hring.published_le)]
    rw [← takenFrom_setPage hr htake]
    rfl

theorem uses_of_ticketAt {producer : Producer A T} {t : Ticket T}
    (h : producer.ticketAt a = some t) : producer.uses a := by
  cases producer with
  | ticket header u =>
    simp only [Producer.ticketAt] at h
    split_ifs at h with hheader
    simpa [Producer.uses] using hheader
  | _ => simp [Producer.ticketAt] at h

/-- Nobody works on a page outside of the queue. -/
theorem Valid.unused (h : Valid s) (ha : a ∉ s.chain) :
    (∀ q, (s.producers q).ticketAt a = none) ∧ s.consumer.popAt a = .idle := by
  constructor
  · intro q
    cases ht : (s.producers q).ticketAt a with
    | none => rfl
    | some t => exact absurd (h.uses q a (uses_of_ticketAt ht)) ha
  · have hconsumer := h.consumer
    revert hconsumer
    cases s.consumer with
    | pop header left =>
      intro hhead
      have hmem : header ∈ s.chain := List.mem_of_mem_head? hhead
      exact if_neg (ne_of_mem_of_not_mem hmem ha)
    | _ => intro _; rfl

/-- A page outside of the queue changes, and the producer that it belongs to. -/
theorem Valid.setSpare (h : Valid s) {producer : Producer A T} {page : Option (Ring P T)}
    (hchain : a ∉ s.chain)
    (hpage : ∀ r, page = some r → r.Valid (fun _ => none) .idle)
    (hticket : ∀ b, (s.producers p).ticketAt b = none)
    (hticket' : ∀ b, producer.ticketAt b = none)
    (hpending : (s.producers p).pending = []) (hpending' : producer.pending = [])
    (huses : ∀ b, producer.uses b → b ∈ s.chain)
    (hspare : ∀ item header b, producer = .replace item header b →
      b = a ∧ ∃ capacity, page = some (.empty capacity))
    (halone : ∀ q item header, q ≠ p → s.producers q ≠ .replace item header a)
    (hexchange : ∀ item b slot next, producer ≠ .exchange item b slot next)
    (hbehind : ∀ b, producer.reserving b → NotBehind s p b) :
    Valid { s.set p producer with pages := Function.update s.pages a page } := by
  have hproducers := set_producers s p producer
  have hpages : ∀ b ∈ s.chain, Function.update s.pages a page b = s.pages b :=
    fun b hb => Function.update_of_ne (ne_of_mem_of_not_mem hb hchain) _ _
  have hreserved : ∀ b ∈ s.chain, ({ s.set p producer with
      pages := Function.update s.pages a page } : State A P T).reservedAt b = s.reservedAt b := by
    intro b hb
    simp only [State.reservedAt, hpages b hb]
  constructor
  · exact h.nodup
  · intro b hb
    obtain ⟨r, hr⟩ := h.live b hb
    exact ⟨r, (hpages b hb).trans hr⟩
  · intro b r hr
    change r.Valid (fun q => ((s.set p producer).producers q).ticketAt b) (s.consumer.popAt b)
    change Function.update s.pages a page b = some r at hr
    rw [set_ticketAt ((hticket' b).trans (hticket b).symm)]
    by_cases hb : b = a
    · subst hb
      rw [Function.update_self] at hr
      obtain ⟨hnone, hidle⟩ := h.unused hchain
      rw [hidle, funext hnone]
      exact hpage r hr
    · rw [Function.update_of_ne hb] at hr
      exact h.rings b r hr
  · intro q b hq
    change ((s.set p producer).producers q).uses b = true at hq
    rw [hproducers] at hq
    split_ifs at hq
    · exact huses b hq
    · exact h.uses q b hq
  · intro q item header b hq
    change (s.set p producer).producers q = _ at hq
    change b ∉ s.chain ∧ ∃ capacity, Function.update s.pages a page b = _
    rw [hproducers] at hq
    split_ifs at hq with hqp
    · obtain ⟨rfl, hcapacity⟩ := hspare item header b hq
      exact ⟨hchain, by rw [Function.update_self]; exact hcapacity⟩
    · obtain ⟨hb, hcapacity⟩ := h.spare q item header b hq
      have hba : b ≠ a := fun heq => halone q item header hqp (heq ▸ hq)
      exact ⟨hb, by rw [Function.update_of_ne hba]; exact hcapacity⟩
  · intro q q' item item' header header' b hq hq'
    change (s.set p producer).producers q = _ at hq
    change (s.set p producer).producers q' = _ at hq'
    rw [hproducers] at hq hq'
    split_ifs at hq hq' with hp hp' hp'
    · rw [hp, hp']
    · obtain ⟨rfl, -⟩ := hspare item header b hq
      exact absurd hq' (halone q' item' header' hp')
    · obtain ⟨rfl, -⟩ := hspare item' header' b hq'
      exact absurd hq (halone q item header hp)
    · exact h.distinct q q' item item' header header' b hq hq'
  · intro q item b slot next r hq hr
    change (s.set p producer).producers q = _ at hq
    change Function.update s.pages a page b = some r at hr
    rw [hproducers] at hq
    split_ifs at hq
    · exact absurd hq (hexchange item b slot next)
    · have hb : b ∈ s.chain := h.uses q b (by rw [hq]; simp [Producer.uses])
      exact h.next q item b slot next r hq ((hpages b hb).symm.trans hr)
  · refine h.consumer.extend (List.append_nil _).symm fun b hb r hr => ?_
    exact ⟨r, (hpages b hb).symm.trans hr, rfl⟩
  · intro b hb r hr
    exact h.untaken b hb r ((hpages b (List.mem_of_mem_tail hb)).symm.trans hr)
  · intro q b hq before after hsplit c hc x hx
    change ((s.set p producer).producers q).reserving b = true at hq
    rw [hreserved c (by rw [show s.chain = _ from hsplit]; simp [hc])] at hx
    rw [hproducers] at hq
    split_ifs at hq with hqp
    · rw [hqp]
      exact hbehind b hq before after hsplit c hc x hx
    · exact h.behind q b hq before after hsplit c hc x hx
  · intro q
    have htotal : ({ s.set p producer with pages := Function.update s.pages a page } :
        State A P T).total = s.total :=
      congrArg (s.released ++ ·) (List.flatMap_congr hreserved)
    rw [htotal, h.order q]
    change _ = s.pushed.filter _ ++ ((s.set p producer).producers q).pending.map _
    rw [hproducers]
    split_ifs with hqp
    · rw [hqp, hpending, hpending']
    · rfl
  · have htaken : ({ s.set p producer with pages := Function.update s.pages a page } :
        State A P T).takenFrom = s.takenFrom := by
      change (match s.chain with | [] => [] | b :: _ => _) = _
      simp only [State.takenFrom]
      cases hhead : s.chain with
      | nil => rfl
      | cons b rest =>
        simp only
        rw [hpages b (by rw [hhead]; exact List.mem_cons_self)]
    change s.popped = (s.released ++ _).map Prod.snd
    rw [htaken]
    exact h.popped

/-- A producer opens the page that it has allocated. -/
theorem Valid.open (h : Valid s) {item : T} {header : Option A}
    (hp : s.producers p = .replace item header a) :
    Valid { s.set p (.loadWrite item a) with chain := s.chain ++ [a] } := by
  obtain ⟨hchain, capacity, hpage⟩ := h.spare p item header a hp
  have hproducers := set_producers s p (.loadWrite item a)
  have hempty : s.reservedAt a = [] := reservedAt_of_some hpage
  constructor
  · change (s.chain ++ [a]).Nodup
    rw [List.nodup_append]
    refine ⟨h.nodup, List.nodup_singleton a, fun b hb c hc => ?_⟩
    rw [List.mem_singleton.mp hc]
    exact ne_of_mem_of_not_mem hb hchain
  · intro b hb
    rcases List.mem_append.mp hb with hb | hb
    · exact h.live b hb
    · rw [List.mem_singleton.mp hb]
      exact ⟨_, hpage⟩
  · intro b r hr
    change r.Valid (fun q => ((s.set p (.loadWrite item a)).producers q).ticketAt b) _
    rw [set_ticketAt (by rw [hp]; rfl)]
    exact h.rings b r hr
  · intro q b hq
    change ((s.set p (.loadWrite item a)).producers q).uses b = true at hq
    rw [hproducers] at hq
    split_ifs at hq
    · have hb : a = b := by simpa [Producer.uses] using hq
      rw [← hb]
      exact List.mem_append_right _ (List.mem_singleton_self a)
    · exact List.mem_append_left _ (h.uses q b hq)
  · intro q item' header' b hq
    change (s.set p (.loadWrite item a)).producers q = _ at hq
    rw [hproducers] at hq
    split_ifs at hq with hqp
    obtain ⟨hb, hcapacity⟩ := h.spare q item' header' b hq
    refine ⟨fun hmem => ?_, hcapacity⟩
    rcases List.mem_append.mp hmem with hmem | hmem
    · exact hb hmem
    · rw [List.mem_singleton.mp hmem] at hq
      exact hqp (h.distinct q p item' item header' header a hq hp)
  · intro q q' item item' header header' b hq hq'
    change (s.set p _).producers q = _ at hq
    change (s.set p _).producers q' = _ at hq'
    rw [hproducers] at hq hq'
    split_ifs at hq hq'
    exact h.distinct q q' item item' header header' b hq hq'
  · intro q item' b slot next r hq hr
    change (s.set p _).producers q = _ at hq
    rw [hproducers] at hq
    split_ifs at hq
    exact h.next q item' b slot next r hq hr
  · exact h.consumer.extend rfl fun b _ r hr => ⟨r, hr, rfl⟩
  · intro b hb r hr
    change b ∈ (s.chain ++ [a]).tail at hb
    change s.pages b = some r at hr
    cases hhead : s.chain with
    | nil => simp [hhead] at hb
    | cons first rest =>
      rw [hhead, List.cons_append, List.tail_cons, List.mem_append, List.mem_singleton] at hb
      rcases hb with hb | rfl
      · exact h.untaken b (by rw [hhead]; exact hb) r hr
      · cases hpage.symm.trans hr
        rfl
  · intro q b hq before after hsplit c hc x hx
    change ((s.set p (.loadWrite item a)).producers q).reserving b = true at hq
    change s.chain ++ [a] = before ++ b :: after at hsplit
    change x ∈ s.reservedAt c at hx
    obtain ⟨after', last, rfl⟩ :=
      (List.eq_nil_or_concat' after).resolve_left (List.ne_nil_of_mem hc)
    rw [← List.cons_append, ← List.append_assoc] at hsplit
    obtain ⟨hfront, hlast⟩ := List.append_inj' hsplit rfl
    obtain rfl := (List.singleton_inj.mp hlast)
    rcases List.mem_append.mp hc with hc | hc
    · rw [hproducers] at hq
      split_ifs at hq
      · have hb : a = b := by simpa [Producer.reserving] using hq
        exact absurd (by rw [hfront, hb]; simp) hchain
      · exact h.behind q b hq before after' hfront c hc x hx
    · rw [List.mem_singleton.mp hc, hempty] at hx
      cases hx
  · intro q
    have htotal : ({ s.set p (.loadWrite item a) with chain := s.chain ++ [a] } :
        State A P T).total = s.total := by
      change s.released ++ (s.chain ++ [a]).flatMap s.reservedAt = _
      rw [List.flatMap_append, List.flatMap_singleton, hempty, List.append_nil]
      rfl
    rw [htotal, h.order q]
    change _ = s.pushed.filter _ ++ ((s.set p (.loadWrite item a)).producers q).pending.map _
    rw [hproducers]
    split_ifs with hqp
    · rw [hqp, hp]
      rfl
    · rfl
  · have htaken : ({ s.set p (.loadWrite item a) with chain := s.chain ++ [a] } :
        State A P T).takenFrom = s.takenFrom := by
      change (match s.chain ++ [a] with | [] => [] | b :: _ => _) = _
      simp only [State.takenFrom]
      cases s.chain with
      | nil =>
        change (match s.pages a with | none => [] | some r => r.reserved.take r.taken) = []
        rw [hpage]
        rfl
      | cons b rest => rfl
    change s.popped = (s.released ++ _).map Prod.snd
    rw [htaken]
    exact h.popped

theorem Valid.page (h : Valid s) (ha : a ∈ s.chain) :
    ∃ r, s.pages a = some r ∧ s.page a = .ok r := by
  obtain ⟨r, hr⟩ := h.live a ha
  exact ⟨r, hr, by rw [State.page, hr]⟩

/-- A producer goes on with the write header. -/
theorem Valid.checkout (h : Valid s) (p : P) (item : T) :
    (∀ a, (Producer.checkout item s.chain.getLast? : Producer A T).uses a → a ∈ s.chain) ∧
      (∀ a, (Producer.checkout item s.chain.getLast? : Producer A T).reserving a →
        NotBehind s p a) := by
  cases hlast : s.chain.getLast? with
  | none => constructor <;> simp [Producer.checkout, Producer.uses, Producer.reserving]
  | some b =>
    constructor
    · intro a ha
      have hb : b = a := by simpa [Producer.checkout, Producer.uses] using ha
      rw [← hb]
      exact List.mem_of_getLast? hlast
    · intro a ha
      have hb : b = a := by simpa [Producer.checkout, Producer.reserving] using ha
      exact notBehind_of_getLast? h.nodup (hb ▸ hlast)

theorem ticketAt_checkout (item : T) (header : Option A) (a : A) :
    (Producer.checkout item header : Producer A T).ticketAt a = none := by
  cases header <;> rfl

omit [DecidableEq A] in
theorem pending_checkout (item : T) (header : Option A) :
    (Producer.checkout item header : Producer A T).pending = [] := by
  cases header <;> rfl

omit [DecidableEq A] in
theorem checkout_ne (item : T) (header : Option A) :
    (∀ item' header' a, (Producer.checkout item header : Producer A T) ≠
      .replace item' header' a) ∧
    ∀ item' a slot next, (Producer.checkout item header : Producer A T) ≠
      .exchange item' a slot next := by
  cases header <;> simp [Producer.checkout]

/-- A producer reserves a slot, if it is still the next one. -/
theorem Valid.produce_exchange (h : Valid s) (reserve : ℕ → ℕ) {p : P} {weak : Bool}
    {address : Option A} {item : T} {header : A} {slot next : ℕ}
    (hp : s.producers p = .exchange item header slot next)
    (hroomy : roomy s (.produce p weak address)) :
    ∃ s', PageQueue.produce reserve s p weak address = .ok s' ∧ Valid s' := by
  have huses := h.uses p
  have hbehind := h.behind p
  rw [hp] at huses hbehind
  have hmem := huses header (by simp [Producer.uses])
  obtain ⟨r, hr, hpage⟩ := h.page hmem
  simp only [PageQueue.produce, hp, hpage]
  split_ifs with hswap
  · obtain ⟨rfl, rfl⟩ := hswap
    have hroom : r.readi ≠ next := by simpa [roomy, hp, hr] using hroomy
    have hring := (h.rings header r hr).reserve (p := p) (by rw [hp]; rfl) item
      (h.next p item header _ next r hp hr) hroom
    have hticket : (Producer.ticket header (Ticket.construct item r.writei next
        r.reserved.length) : Producer A T).ticketAt header =
        some (.construct item r.writei next r.reserved.length) := if_pos rfl
    refine ⟨_, rfl, h.work hr hmem (hticket ▸ hring) ?_ ?_ rfl rfl rfl ?_ ?_ ?_ [item] rfl
      (.inr (hbehind header (by simp [Producer.reserving]))) ?_⟩
    · rw [hp]; intro b _; rfl
    · intro b hb
      exact if_neg (Ne.symm hb)
    · simp [Producer.uses]
    · simp [Producer.reserving]
    · simp
    · intro q
      by_cases hq : q = p
      · subst hq
        simp [hp, Producer.pending, State.set]
      · simp [hq, State.set]
  · refine ⟨_, rfl, h.set ?_ ?_ huses ?_ ?_ hbehind⟩
    · rw [hp]; intro a; rfl
    · rw [hp]; rfl
    · simp
    · simp

/-- A producer fills the slot that it has reserved, and publishes it in its turn. -/
theorem Valid.produce_ticket (h : Valid s) (reserve : ℕ → ℕ) {p : P} {weak : Bool}
    {address : Option A} {header : A} {t : Ticket T} (hp : s.producers p = .ticket header t) :
    ∃ s', PageQueue.produce reserve s p weak address = .ok s' ∧ Valid s' := by
  have huses := h.uses p
  rw [hp] at huses
  have hmem := huses header (by simp [Producer.uses])
  obtain ⟨r, hr, hpage⟩ := h.page hmem
  have hring := h.rings header r hr
  have hticket : (s.producers p).ticketAt header = some t := by
    rw [hp]
    exact if_pos rfl
  have hold : ∀ b, b ≠ header → (s.producers p).ticketAt b = none := by
    intro b hb
    rw [hp]
    exact if_neg (Ne.symm hb)
  cases t with
  | construct item slot next index =>
    obtain ⟨storage, hstorage, hring'⟩ := hring.construct hticket
    simp only [PageQueue.produce, hp, hpage, hstorage]
    have hnew : (Producer.ticket header (Ticket.checkin item slot next index) :
        Producer A T).ticketAt header = some (.checkin item slot next index) := if_pos rfl
    refine ⟨_, rfl, h.work hr hmem (hnew ▸ hring') hold ?_ rfl rfl rfl ?_ ?_ ?_ [] ?_
      (.inl rfl) ?_⟩
    · intro b hb
      exact if_neg (Ne.symm hb)
    · simp [Producer.uses]
    · simp [Producer.reserving]
    · simp
    · simp
    · intro q
      by_cases hq : q = p
      · subst hq
        simp [hp, Producer.pending, State.set]
      · simp [hq, State.set]
  | checkin item slot next index =>
    simp only [PageQueue.produce, hp, hpage]
    split_ifs with hswap
    · obtain ⟨-, hring'⟩ := hring.publish hticket hswap.1
      refine ⟨_, rfl, h.work hr hmem hring' hold ?_ rfl rfl rfl ?_ ?_ ?_ [] ?_ (.inl rfl) ?_⟩
      · intro b hb
        rfl
      · simp [Producer.uses]
      · simp [Producer.reserving]
      · simp
      · simp [Ring.publish]
      · intro q
        by_cases hq : q = p
        · subst hq
          simp [hp, Producer.pending]
        · simp [hq, Ne.symm hq]
    · exact ⟨s, rfl, h⟩

/-- A producer makes a page. -/
theorem Valid.produce_allocate (h : Valid s) (reserve : ℕ → ℕ) {p : P} {weak : Bool}
    {address : Option A} {item : T} {header : Option A}
    (hp : s.producers p = .allocate item header) :
    ∃ s', PageQueue.produce reserve s p weak address = .ok s' ∧ Valid s' := by
  have huses := h.uses p
  rw [hp] at huses
  obtain ⟨capacity, hcapacity⟩ : ∃ capacity, s.capacity header = .ok capacity := by
    cases header with
    | none => exact ⟨0, rfl⟩
    | some a =>
      obtain ⟨r, hr, hpage⟩ := h.page (huses a (by simp [Producer.uses]))
      exact ⟨r.capacity, by rw [State.capacity, hpage]; rfl⟩
  simp only [PageQueue.produce, hp, hcapacity]
  cases address with
  | none =>
    refine ⟨_, rfl, h.set ?_ ?_ ?_ ?_ ?_ ?_⟩
    · rw [hp]; intro a; rfl
    · rw [hp]; rfl
    · simp [Producer.uses]
    · simp
    · simp
    · simp [Producer.reserving]
  | some a =>
    simp only
    split_ifs with hsome
    · exact ⟨s, rfl, h⟩
    · have hnone : s.pages a = none := by simpa using hsome
      have hchain : a ∉ s.chain := fun hmem => by
        obtain ⟨r, hr⟩ := h.live a hmem
        rw [hnone] at hr
        cases hr
      refine ⟨_, rfl, h.setSpare hchain ?_ ?_ ?_ ?_ ?_ ?_ ?_ ?_ ?_ ?_⟩
      · rintro r ⟨⟩
        exact Ring.empty_valid _
      · rw [hp]; intro b; rfl
      · intro b; rfl
      · rw [hp]; rfl
      · rfl
      · simp [Producer.uses]
      · rintro item' header' b ⟨⟩
        exact ⟨rfl, _, rfl⟩
      · intro q item' header' _ hq
        obtain ⟨-, c, hc⟩ := h.spare q item' header' a hq
        rw [hnone] at hc
        cases hc
      · simp
      · simp [Producer.reserving]

/-- A producer puts its page behind the last one, unless there is a new one. -/
theorem Valid.produce_replace (h : Valid s) (reserve : ℕ → ℕ) {p : P} {weak : Bool}
    {address : Option A} {item : T} {header : Option A} {a : A}
    (hp : s.producers p = .replace item header a) :
    ∃ s', PageQueue.produce reserve s p weak address = .ok s' ∧ Valid s' := by
  simp only [PageQueue.produce, hp]
  split_ifs with hlast
  · exact ⟨_, rfl, h.open hp⟩
  · obtain ⟨hchain, -⟩ := h.spare p item header a hp
    obtain ⟨hcheckout, hcheckout'⟩ := h.checkout p item
    obtain ⟨hne, hne'⟩ := checkout_ne item s.chain.getLast?
    refine ⟨_, rfl, h.setSpare hchain ?_ ?_ ?_ ?_ ?_ hcheckout ?_ ?_ hne' hcheckout'⟩
    · simp
    · rw [hp]; intro b; rfl
    · exact fun b => ticketAt_checkout item _ b
    · rw [hp]; rfl
    · exact pending_checkout item _
    · exact fun item' header' b heq => absurd heq (hne item' header' b)
    · intro q item' header' hq hq'
      exact hq (h.distinct q p item' item header' header a hq' hp)

theorem Valid.produce (h : Valid s) (reserve : ℕ → ℕ) (p : P) (weak : Bool) (address : Option A)
    (hroomy : roomy s (.produce p weak address)) :
    ∃ s', produce reserve s p weak address = .ok s' ∧ Valid s' := by
  have huses := h.uses p
  have hbehind := h.behind p
  cases hp : s.producers p with
  | idle => exact ⟨s, by rw [PageQueue.produce, hp], h⟩
  | loadHeader item =>
    obtain ⟨hcheckout, hcheckout'⟩ := h.checkout p item
    obtain ⟨hne, hne'⟩ := checkout_ne item s.chain.getLast?
    refine ⟨_, by rw [PageQueue.produce, hp], h.set ?_ ?_ hcheckout hne ?_ hcheckout'⟩
    · intro a
      rw [ticketAt_checkout, hp]
      rfl
    · rw [pending_checkout, hp]
      rfl
    · exact fun item' a slot next r heq => absurd heq (hne' item' a slot next)
  | loadWrite item header =>
    rw [hp] at huses hbehind
    obtain ⟨r, hr, hpage⟩ := h.page (huses header (by simp [Producer.uses]))
    simp only [PageQueue.produce, hp, hpage]
    refine ⟨_, rfl, h.set ?_ ?_ huses ?_ ?_ hbehind⟩
    · rw [hp]; intro a; rfl
    · rw [hp]; rfl
    · simp
    · simp
  | loadRead item header slot =>
    rw [hp] at huses hbehind
    obtain ⟨r, hr, hpage⟩ := h.page (huses header (by simp [Producer.uses]))
    simp only [PageQueue.produce, hp, hpage]
    split_ifs with hfull
    · refine ⟨_, rfl, h.set ?_ ?_ ?_ ?_ ?_ ?_⟩
      · rw [hp]; intro a; rfl
      · rw [hp]; rfl
      · intro a ha
        exact huses a (by simpa [Producer.uses] using ha)
      · simp
      · simp
      · simp [Producer.reserving]
    · refine ⟨_, rfl, h.set ?_ ?_ huses ?_ ?_ hbehind⟩
      · rw [hp]; intro a; rfl
      · rw [hp]; rfl
      · simp
      · intro item' a slot' next r' heq hr'
        cases heq
        cases hr.symm.trans hr'
        rfl
  | exchange item header slot next => exact h.produce_exchange reserve hp hroomy
  | ticket header t => exact h.produce_ticket reserve hp
  | allocate item header => exact h.produce_allocate reserve hp
  | replace item header a => exact h.produce_replace reserve hp

/-! ## Steps of the consumer -/

theorem Valid.setConsumer (h : Valid s) {consumer : Consumer A T}
    (hpop : ∀ a, consumer.popAt a = s.consumer.popAt a) (hholds : ConsumerHolds s consumer) :
    Valid { s with consumer := consumer } := by
  refine { h with
    rings := fun a r hr => ?_, consumer := ?_ }
  · change r.Valid _ (consumer.popAt a)
    rw [hpop]
    exact h.rings a r hr
  · cases consumer <;> exact hholds

omit [DecidableEq A] [DecidableEq P] in
theorem takenFrom_of_head? {r : Ring P T} (ha : s.chain.head? = some a) (hr : s.pages a = some r) :
    s.takenFrom = r.reserved.take r.taken := by
  obtain ⟨rest, hrest⟩ := List.head?_eq_some_iff.mp ha
  rw [State.takenFrom, hrest]
  simp only [hr]

omit [DecidableEq P] in
theorem total_setPage_same {r r' : Ring P T} (hr : s.pages a = some r)
    (hreserved : r'.reserved = r.reserved) : (s.setPage a r').total = s.total := by
  refine congrArg (s.released ++ ·) (List.flatMap_congr fun b _ => ?_)
  rw [setPage_reservedAt]
  split_ifs with hb
  · rw [hb, reservedAt_of_some hr, hreserved]
  · rfl

/-- A step of a pop on the oldest page. -/
theorem Valid.pop (h : Valid s) {r r' : Ring P T} {consumer : Consumer A T} {popped : List T}
    (ha : s.chain.head? = some a) (hr : s.pages a = some r)
    (hring : r'.Valid (fun p => (s.producers p).ticketAt a) (consumer.popAt a))
    (hpop : ∀ b, b ≠ a → consumer.popAt b = s.consumer.popAt b)
    (hholds : consumer = .idle ∨ ∃ left, consumer = .pop a left)
    (hcapacity : r'.capacity = r.capacity) (hreserved : r'.reserved = r.reserved)
    (hpopped : popped = s.released.map Prod.snd ++ (r.reserved.take r'.taken).map Prod.snd) :
    Valid { s.setPage a r' with consumer := consumer, popped := popped } := by
  have hpages : ∀ b, ({ s.setPage a r' with consumer := consumer, popped := popped } :
      State A P T).pages b = if b = a then some r' else s.pages b := fun b => setPage_pages ..
  have hat : ∀ b, ({ s.setPage a r' with consumer := consumer, popped := popped } :
      State A P T).reservedAt b = s.reservedAt b := by
    intro b
    change (s.setPage a r').reservedAt b = _
    rw [setPage_reservedAt]
    split_ifs with hb
    · rw [hb, reservedAt_of_some hr, hreserved]
    · rfl
  have hhead : a ∉ s.chain.tail := by
    obtain ⟨rest, hrest⟩ := List.head?_eq_some_iff.mp ha
    have hnodup := h.nodup
    rw [hrest] at hnodup ⊢
    exact (List.nodup_cons.mp hnodup).1
  constructor
  · exact h.nodup
  · intro b hb
    rw [hpages]
    split_ifs
    · exact ⟨r', rfl⟩
    · exact h.live b hb
  · intro b t ht
    rw [hpages] at ht
    change t.Valid (fun p => (s.producers p).ticketAt b) (consumer.popAt b)
    split_ifs at ht with hb
    · cases ht
      rw [hb]
      exact hring
    · rw [hpop b hb]
      exact h.rings b t ht
  · exact h.uses
  · intro q item header b hq
    obtain ⟨hb, capacity, hpage⟩ := h.spare q item header b hq
    refine ⟨hb, capacity, ?_⟩
    rw [hpages, if_neg (ne_of_mem_of_not_mem (List.mem_of_mem_head? ha) hb).symm]
    exact hpage
  · exact h.distinct
  · intro q item b slot next t hq ht
    rw [hpages] at ht
    split_ifs at ht with hb
    · cases ht
      rw [hcapacity]
      exact h.next q item b slot next r hq (hb ▸ hr)
    · exact h.next q item b slot next t hq ht
  · rcases hholds with rfl | ⟨left, rfl⟩
    · trivial
    · exact ha
  · intro b hb t ht
    rw [hpages, if_neg (ne_of_mem_of_not_mem hb hhead)] at ht
    exact h.untaken b hb t ht
  · intro q b hq before after hsplit c hc x hx
    rw [hat] at hx
    exact h.behind q b hq before after hsplit c hc x hx
  · intro q
    exact (congrArg (List.filter _) (total_setPage_same hr hreserved)).trans (h.order q)
  · change popped = (s.released ++ _).map Prod.snd
    rw [takenFrom_of_head? (s := { s.setPage a r' with consumer := consumer, popped := popped }) ha
      ((hpages a).trans (if_pos rfl)), hreserved, List.map_append]
    exact hpopped

theorem Valid.popStep (h : Valid s) {r : Ring P T} {consumer : Consumer A T}
    (ha : s.chain.head? = some a) (hr : s.pages a = some r)
    (hring : r.Valid (fun p => (s.producers p).ticketAt a) (consumer.popAt a))
    (hpop : ∀ b, b ≠ a → consumer.popAt b = s.consumer.popAt b)
    (hholds : consumer = .idle ∨ ∃ left, consumer = .pop a left) :
    Valid { s with consumer := consumer } := by
  have hpopped := h.popped
  rw [takenFrom_of_head? ha hr, List.map_append] at hpopped
  have hvalid := h.pop ha hr hring hpop hholds rfl rfl hpopped
  have hsame : s.setPage a r = s := by
    rw [State.setPage, ← hr, Function.update_eq_self]
  rw [hsame] at hvalid
  exact hvalid

omit [DecidableEq P] in
/-- The reservations in a page that is released are not forgotten. -/
theorem total_release {rest : List A} {r : Ring P T} (hnodup : s.chain.Nodup)
    (hchain : s.chain = a :: rest) (hr : s.pages a = some r) (consumer : Consumer A T) :
    ({ s.deallocate a with
      chain := s.chain.tail, consumer := consumer
      released := s.released ++ r.reserved } : State A P T).total = s.total := by
  rw [hchain] at hnodup
  have hat : ∀ b ∈ rest, (s.deallocate a).reservedAt b = s.reservedAt b := by
    intro b hb
    have hne : b ≠ a := ne_of_mem_of_not_mem hb (List.nodup_cons.mp hnodup).1
    simp only [State.reservedAt, State.deallocate, Function.update_of_ne hne]
  change (s.released ++ r.reserved) ++ s.chain.tail.flatMap (s.deallocate a).reservedAt = _
  rw [State.total, hchain, List.tail_cons, List.flatMap_congr hat, List.flatMap_cons,
    reservedAt_of_some hr, List.append_assoc]

/-- The oldest page is released when nothing is left in it and nobody is going to use it. -/
theorem Valid.release (h : Valid s) {nextHeader : A} {rest : List A} {r : Ring P T}
    (hidle : ∀ b, s.consumer.popAt b = .idle) (hchain : s.chain = a :: nextHeader :: rest)
    (hr : s.pages a = some r) (hdrained : r.taken = r.reserved.length)
    (hspares : ∀ p, (s.producers p).uses a = false) :
    Valid { s.deallocate a with
      chain := s.chain.tail, consumer := .pop nextHeader .idle
      released := s.released ++ r.reserved } := by
  have hnodup := h.nodup
  rw [hchain] at hnodup
  have hpages : ∀ b, b ≠ a → Function.update s.pages a none b = s.pages b :=
    fun b hb => Function.update_of_ne hb _ _
  have hne : ∀ b ∈ s.chain.tail, b ≠ a := by
    intro b hb
    rw [hchain] at hb
    exact ne_of_mem_of_not_mem hb (List.nodup_cons.mp hnodup).1
  have hat : ∀ b ∈ s.chain.tail, (s.deallocate a).reservedAt b = s.reservedAt b := by
    intro b hb
    simp only [State.reservedAt, State.deallocate, hpages b (hne b hb)]
  have hsuffix : s.chain = a :: s.chain.tail := by rw [hchain]; rfl
  constructor
  · exact hnodup.of_cons.sublist (by rw [hchain]; exact List.Sublist.refl _)
  · intro b hb
    obtain ⟨t, ht⟩ := h.live b (List.mem_of_mem_tail hb)
    exact ⟨t, (hpages b (hne b hb)).trans ht⟩
  · intro b t ht
    change Function.update s.pages a none b = some t at ht
    have hb : b ≠ a := by
      rintro rfl
      rw [Function.update_self] at ht
      cases ht
    rw [hpages b hb] at ht
    have hring := h.rings b t ht
    rw [hidle b] at hring
    change t.Valid _ (if nextHeader = b then .idle else .idle)
    rw [ite_self]
    exact hring
  · intro q b hq
    have hmem := h.uses q b hq
    rw [hsuffix, List.mem_cons] at hmem
    refine hmem.resolve_left fun heq => ?_
    have hspare := hspares q
    rw [← heq] at hspare
    change (s.producers q).uses b = true at hq
    rw [hspare] at hq
    cases hq
  · intro q item header b hq
    obtain ⟨hb, capacity, hpage⟩ := h.spare q item header b hq
    refine ⟨fun hmem => hb (List.mem_of_mem_tail hmem), capacity, ?_⟩
    exact (hpages b fun heq => hb (by rw [heq, hsuffix]; exact List.mem_cons_self)).trans hpage
  · exact h.distinct
  · intro q item b slot next t hq ht
    change Function.update s.pages a none b = some t at ht
    have hb : b ≠ a := by
      rintro rfl
      rw [Function.update_self] at ht
      cases ht
    exact h.next q item b slot next t hq ((hpages b hb).symm.trans ht)
  · change s.chain.tail.head? = some nextHeader
    rw [hchain]
    rfl
  · intro b hb t ht
    have hmem : b ∈ s.chain.tail := List.mem_of_mem_tail hb
    exact h.untaken b hmem t ((hpages b (hne b hmem)).symm.trans ht)
  · intro q b hq before after hsplit c hc x hx
    change s.chain.tail = before ++ b :: after at hsplit
    change x ∈ (s.deallocate a).reservedAt c at hx
    rw [hat c (by rw [hsplit]; simp [hc])] at hx
    refine h.behind q b hq (a :: before) after ?_ c hc x hx
    rw [hsuffix, hsplit]
    rfl
  · intro q
    exact (congrArg (List.filter _) (total_release h.nodup hchain hr _)).trans (h.order q)
  · have hnext : nextHeader ∈ s.chain.tail := by rw [hchain]; exact List.mem_cons_self
    obtain ⟨t, ht⟩ := h.live nextHeader (List.mem_of_mem_tail hnext)
    have htaken : ({ s.deallocate a with
        chain := s.chain.tail, consumer := .pop nextHeader .idle
        released := s.released ++ r.reserved } : State A P T).takenFrom = [] := by
      refine (takenFrom_of_head? (r := t) (a := nextHeader) ?_ ?_).trans ?_
      · change s.chain.tail.head? = some nextHeader
        rw [hchain]
        rfl
      · exact (hpages nextHeader (hne nextHeader hnext)).trans ht
      · rw [h.untaken nextHeader hnext t ht]
        rfl
    rw [htaken, List.append_nil]
    have hpopped := h.popped
    rw [takenFrom_of_head? (by rw [hsuffix]; rfl) hr, hdrained, List.take_length] at hpopped
    exact hpopped

omit [DecidableEq P] in
theorem popAt_pop (a : A) (left : Pop T) : (Consumer.pop a left).popAt a = left := if_pos rfl

omit [DecidableEq P] in
/-- Only the page that is being popped from is popped from. -/
theorem popAt_of_ne {consumer : Consumer A T} (hb : b ≠ a)
    (h : consumer = .idle ∨ ∃ left, consumer = .pop a left) : consumer.popAt b = .idle := by
  obtain rfl | ⟨left, rfl⟩ := h
  · rfl
  · exact if_neg (Ne.symm hb)

/-- A pop from the oldest page goes on. -/
theorem Valid.consume_pop (h : Valid s) {left : Pop T} (hc : s.consumer = .pop a left)
    (ha : s.chain.head? = some a) : ∃ s', consume s = .ok s' ∧ Valid s' := by
  obtain ⟨r, hr, hpage⟩ := h.page (List.mem_of_mem_head? ha)
  have hring := h.rings a r hr
  rw [hc, popAt_pop] at hring
  have hother : ∀ consumer : Consumer A T, (consumer = .idle ∨ ∃ left, consumer = .pop a left) →
      ∀ b, b ≠ a → consumer.popAt b = s.consumer.popAt b := fun consumer hconsumer b hb => by
    rw [popAt_of_ne hb hconsumer, popAt_of_ne hb (.inr ⟨left, hc⟩)]
  have hpop := popAt_pop (T := T) a
  simp only [PageQueue.consume, hc, hpage]
  cases left with
  | idle =>
    exact ⟨_, rfl, h.popStep ha hr (hpop _ ▸ hring.beginPop) (hother _ (.inr ⟨_, rfl⟩))
      (.inr ⟨_, rfl⟩)⟩
  | barrier slot =>
    have hbarrier := hring.barrier
    simp only
    split_ifs at hbarrier ⊢
    · exact ⟨_, rfl, h.popStep ha hr hbarrier.2 (hother _ (.inl rfl)) (.inl rfl)⟩
    · exact ⟨_, rfl, h.popStep ha hr (hpop _ ▸ hbarrier) (hother _ (.inr ⟨_, rfl⟩))
        (.inr ⟨_, rfl⟩)⟩
  | move slot =>
    obtain ⟨item, hread, hring'⟩ := hring.move
    simp only [hread]
    exact ⟨_, rfl, h.popStep ha hr (hpop _ ▸ hring') (hother _ (.inr ⟨_, rfl⟩))
      (.inr ⟨_, rfl⟩)⟩
  | destroy slot item =>
    obtain ⟨storage, hstorage, hring'⟩ := hring.destroy
    have hpopped := h.popped
    rw [takenFrom_of_head? ha hr, List.map_append] at hpopped
    simp only [hstorage]
    exact ⟨_, rfl, h.pop ha hr (hpop _ ▸ hring') (hother _ (.inr ⟨_, rfl⟩))
      (.inr ⟨_, rfl⟩) rfl rfl hpopped⟩
  | store slot item =>
    obtain ⟨hitem, hring'⟩ := hring.take
    have hpopped := h.popped
    rw [takenFrom_of_head? ha hr, List.map_append] at hpopped
    refine ⟨_, rfl, h.pop ha hr hring' (hother _ (.inl rfl)) (.inl rfl) rfl rfl ?_⟩
    change s.popped ++ [item] = _ ++ (r.reserved.take (r.taken + 1)).map Prod.snd
    rw [List.take_add_one, List.map_append, ← Option.toList_map, hitem, hpopped,
      List.append_assoc]
    rfl

theorem Valid.consume (h : Valid s) (hdrained : drained s .consume)
    (hspares : ∀ p, spares s p .consume) : ∃ s', consume s = .ok s' ∧ Valid s' := by
  have hholds := h.consumer
  cases hc : s.consumer with
  | idle =>
    obtain hchain | ⟨header, hchain⟩ | ⟨header, nextHeader, rest, hchain⟩ :
        s.chain = [] ∨ (∃ header, s.chain = [header]) ∨
          ∃ header nextHeader rest, s.chain = header :: nextHeader :: rest := by
      rcases s.chain with _ | ⟨header, _ | ⟨nextHeader, rest⟩⟩ <;> simp
    · exact ⟨s, by simp only [PageQueue.consume, hc, hchain], h⟩
    · have hstep : PageQueue.consume s = .ok { s with consumer := .pop header .idle } := by
        simp only [PageQueue.consume, hc, hchain]
      refine ⟨_, hstep, h.setConsumer (fun a => ?_) ?_⟩
      · rw [hc]
        exact ite_self _
      · change s.chain.head? = some header
        rw [hchain]
        rfl
    · have hstep : PageQueue.consume s = .ok { s with consumer := .loadRead header nextHeader } := by
        simp only [PageQueue.consume, hc, hchain]
      refine ⟨_, hstep, h.setConsumer (fun a => ?_) ?_⟩
      · rw [hc]
        rfl
      · exact ⟨rest, hchain⟩
  | loadRead header nextHeader =>
    rw [hc] at hholds
    obtain ⟨rest, hrest⟩ := hholds
    obtain ⟨r, hr, hpage⟩ := h.page (a := header) (by rw [hrest]; exact List.mem_cons_self)
    simp only [PageQueue.consume, hc, hpage]
    refine ⟨_, rfl, h.setConsumer (fun a => ?_) ⟨⟨rest, hrest⟩, fun t ht => ?_⟩⟩
    · rw [hc]
      rfl
    · cases hr.symm.trans ht
      rfl
  | loadWrite header nextHeader slot =>
    rw [hc] at hholds
    obtain ⟨⟨rest, hrest⟩, hslot⟩ := hholds
    obtain ⟨r, hr, hpage⟩ := h.page (a := header) (by rw [hrest]; exact List.mem_cons_self)
    simp only [PageQueue.consume, hc, hpage]
    split_ifs
    · refine ⟨_, rfl, h.setConsumer (fun a => ?_) ⟨rest, hrest⟩⟩
      rw [hc]
      rfl
    · refine ⟨_, rfl, h.setConsumer (fun a => ?_) ?_⟩
      · rw [hc]
        exact ite_self _
      · change s.chain.head? = some header
        rw [hrest]
        rfl
  | release header nextHeader =>
    rw [hc] at hholds
    obtain ⟨rest, hrest⟩ := hholds
    obtain ⟨r, hr, hpage⟩ := h.page (a := header) (by rw [hrest]; exact List.mem_cons_self)
    simp only [PageQueue.consume, hc, hpage]
    have hring := h.rings header r hr
    have hequal : r.readi = r.writei := by simpa [drained, hc, hr] using hdrained
    refine ⟨_, rfl, h.release ?_ hrest hr (hring.drained hequal) fun p => ?_⟩
    · intro b
      rw [hc]
      rfl
    · simpa [spares, hc] using hspares p
  | pop header left =>
    rw [hc] at hholds
    exact h.consume_pop hc hholds

theorem Valid.step (h : Valid s) (reserve : ℕ → ℕ) {action : Action A P T} (hkept : Kept s action) :
    ∃ s', step reserve s action = .ok s' ∧ Valid s' := by
  cases action with
  | push p item =>
    simp only [PageQueue.step]
    split
    case h_1 hp =>
      refine ⟨_, rfl, h.set ?_ ?_ ?_ ?_ ?_ ?_⟩
      · rw [hp]; intro a; rfl
      · rw [hp]; rfl
      · simp [Producer.uses]
      · simp
      · simp
      · simp [Producer.reserving]
    case h_2 => exact ⟨s, rfl, h⟩
  | produce p weak address => exact h.produce reserve p weak address hkept.1
  | consume => exact h.consume hkept.2.1 hkept.2.2

/-! ## Pushes and pops -/

/-- What has not been popped yet. -/
def State.rest (s : State A P T) : List (P × T) :=
  match s.chain with
  | [] => []
  | a :: chain =>
    (match s.pages a with
      | none => []
      | some r => r.reserved.drop r.taken) ++ chain.flatMap s.reservedAt

omit [DecidableEq A] [DecidableEq P] in
theorem total_eq (s : State A P T) : s.total = (s.released ++ s.takenFrom) ++ s.rest := by
  rw [State.total, State.takenFrom, State.rest]
  rcases s.chain with _ | ⟨a, chain⟩
  · simp
  · simp only [List.flatMap_cons, State.reservedAt]
    cases s.pages a with
    | none => simp
    | some r =>
      simp only [List.append_assoc]
      rw [← List.append_assoc (r.reserved.take _), List.take_append_drop]

/-- An item that is not published yet has not been popped. -/
theorem Valid.mem_rest (h : Valid s) {item : T} (hp : (s.producers p).pending = [item]) :
    (p, item) ∈ s.rest := by
  obtain ⟨a, t, ht, hitem⟩ : ∃ a t, s.producers p = .ticket a t ∧
      (Producer.ticket a t : Producer A T).pending = [item] := by
    cases hproducer : s.producers p with
    | ticket a t => exact ⟨a, t, rfl, by rw [← hproducer]; exact hp⟩
    | _ => simp [hproducer, Producer.pending] at hp
  have hmem : a ∈ s.chain := h.uses p a (by rw [ht]; simp [Producer.uses])
  obtain ⟨r, hr⟩ := h.live a hmem
  have hring := h.rings a r hr
  have hholds := hring.tickets p t (by rw [ht]; exact if_pos rfl)
  obtain ⟨slot, next, index, hplaced⟩ : ∃ slot next index, r.Placed p item slot next index := by
    cases t with
    | construct item' slot next index =>
      obtain rfl : item' = item := by simpa [Producer.pending] using hitem
      exact ⟨slot, next, index, hholds.1⟩
    | checkin item' slot next index =>
      obtain rfl : item' = item := by simpa [Producer.pending] using hitem
      exact ⟨slot, next, index, hholds.1⟩
  have hdrop : (p, item) ∈ r.reserved.drop r.taken := by
    refine List.mem_of_getElem? (i := index - r.taken) ?_
    rw [List.getElem?_drop, Nat.add_sub_cancel' (hring.taken_le.trans hplaced.lower)]
    exact hplaced.reservation
  rw [State.rest]
  cases hchain : s.chain with
  | nil => simp [hchain] at hmem
  | cons b chain =>
    rw [hchain, List.mem_cons] at hmem
    simp only [List.mem_append]
    rcases hmem with rfl | hmem
    · rw [hr]
      exact .inl hdrop
    · refine .inr (List.mem_flatMap.mpr ⟨a, hmem, ?_⟩)
      rw [reservedAt_of_some hr]
      exact List.mem_of_mem_drop hdrop

/-- The items of a producer that have been popped are the first ones that it has pushed. -/
theorem Valid.prefix (h : Valid s) (p : P) :
    (s.released ++ s.takenFrom).filter (fun x => x.1 = p) <+:
      s.pushed.filter (fun x => x.1 = p) := by
  have horder := h.order p
  rw [total_eq, List.filter_append] at horder
  cases hpending : (s.producers p).pending with
  | nil =>
    rw [hpending, List.map_nil, List.append_nil] at horder
    exact ⟨_, horder⟩
  | cons item items =>
    have hnil : items = [] := by
      cases hproducer : s.producers p with
      | ticket a t => cases t <;> simp_all [Producer.pending]
      | _ => simp [hproducer, Producer.pending] at hpending
    subst hnil
    rw [hpending] at horder
    have hmem : (p, item) ∈ s.rest.filter (fun x => x.1 = p) :=
      List.mem_filter.mpr ⟨h.mem_rest hpending, by simp⟩
    have hpos := List.length_pos_of_mem hmem
    have hlength := congrArg List.length horder
    simp only [List.length_append, List.length_map, List.length_singleton] at hlength
    exact List.prefix_of_prefix_length_le ⟨_, horder⟩ (List.prefix_append _ _) (by omega)

/-! ## Popping everything -/

/-- How many items the oldest page holds. -/
def State.left (s : State A P T) : ℕ :=
  match s.chain with
  | [] => 0
  | a :: _ =>
    match s.pages a with
    | none => 0
    | some r => r.reserved.length - r.taken

/-- Steps to the next item or release. -/
def Consumer.effort (left : ℕ) : Consumer A T → ℕ
  | .idle => if left = 0 then 4 else 9
  | .loadRead _ _ => if left = 0 then 3 else 8
  | .loadWrite _ _ _ => if left = 0 then 2 else 7
  | .release _ _ => 1
  | .pop _ .idle => 6
  | .pop _ (.barrier _) => 5
  | .pop _ (.move _) => 4
  | .pop _ (.destroy _ _) => 3
  | .pop _ (.store _ _) => 2

def State.work (s : State A P T) : ℕ :=
  20 * (s.rest.length + s.chain.length) + s.consumer.effort s.left

/-- Producers are between their calls, and a page that is being released is drained. -/
structure Quiet (s : State A P T) : Prop where
  valid : Valid s
  idle : ∀ p, s.producers p = .idle
  drained : drained s .consume

omit [DecidableEq A] [DecidableEq P] in
theorem left_of_chain {rest : List A} {r : Ring P T} (hchain : s.chain = a :: rest)
    (hr : s.pages a = some r) : s.left = r.reserved.length - r.taken := by
  rw [State.left, hchain]
  simp only [hr]

omit [DecidableEq A] [DecidableEq P] in
theorem rest_of_chain {chain : List A} {r : Ring P T} (hchain : s.chain = a :: chain)
    (hr : s.pages a = some r) :
    s.rest = r.reserved.drop r.taken ++ chain.flatMap s.reservedAt := by
  rw [State.rest, hchain]
  simp only [hr]

theorem Valid.rest_length (h : Valid s) : s.rest.length = s.total.length - s.popped.length := by
  have hlength := congrArg List.length h.popped
  rw [List.length_map] at hlength
  rw [hlength, total_eq, List.length_append, Nat.add_sub_cancel_left]

theorem Quiet.published_eq (h : Quiet s) {r : Ring P T} (hr : s.pages a = some r) :
    r.published = r.reserved.length :=
  (h.valid.rings a r hr).published_eq fun p => by rw [h.idle p]; rfl

/-- Only the consumer changes. -/
theorem Quiet.setConsumer (h : Quiet s) {consumer : Consumer A T}
    (hvalid : Valid { s with consumer := consumer })
    (hdrained : PageQueue.drained { s with consumer := consumer } .consume)
    (hlt : consumer.effort s.left < s.consumer.effort s.left) :
    (s.pushed = s.pushed ∧ Quiet { s with consumer := consumer }) ∧
      ({ s with consumer := consumer } : State A P T).work < s.work :=
  ⟨⟨rfl, hvalid, h.idle, hdrained⟩, Nat.add_lt_add_left hlt _⟩

/-- A page is released. -/
theorem Quiet.work_release (h : Quiet s) {s' : State A P T} {nextHeader : A} {rest : List A}
    {r : Ring P T} (hc : s.consumer = .release a nextHeader)
    (hsplit : s.chain = a :: nextHeader :: rest) (hr : s.pages a = some r) (hpage : s.page a = .ok r)
    (hs' : PageQueue.consume s = .ok s') (hvalid : Valid s') :
    (s'.pushed = s.pushed ∧ Quiet s') ∧ s'.work < s.work := by
  simp only [PageQueue.consume, hc, hpage, Except.ok.injEq] at hs'
  subst hs'
  refine ⟨⟨rfl, hvalid, h.idle, rfl⟩, ?_⟩
  have hrest' := hvalid.rest_length
  rw [total_release h.valid.nodup hsplit hr] at hrest'
  rw [State.work, State.work, hrest', h.valid.rest_length, hc]
  change 20 * (_ + s.chain.tail.length) + 6 < 20 * (_ + s.chain.length) + 1
  rw [hsplit, List.tail_cons, List.length_cons, List.length_cons]
  have : ∀ n m : ℕ, 20 * (n + (m + 1)) + 6 < 20 * (n + (m + 1 + 1)) + 1 := by omega
  exact this _ _

/-- An item is popped. -/
theorem Quiet.work_store (h : Quiet s) (hrest : s.rest ≠ []) {slot : ℕ} {item : T} {r : Ring P T}
    (hc : s.consumer = .pop a (.store slot item)) (hr : s.pages a = some r)
    (hvalid : Valid { s.setPage a (r.take (wrapReset (slot + 1) r.capacity)) with
      consumer := .idle, popped := s.popped ++ [item] }) :
    ({ s.setPage a (r.take (wrapReset (slot + 1) r.capacity)) with
      consumer := .idle, popped := s.popped ++ [item] } : State A P T).work < s.work := by
  have hrest' := hvalid.rest_length
  have htotal : (s.setPage a (r.take (wrapReset (slot + 1) r.capacity))).total = s.total :=
    total_setPage_same hr rfl
  change _ = (s.setPage a (r.take (wrapReset (slot + 1) r.capacity))).total.length -
    (s.popped ++ [item]).length at hrest'
  rw [htotal, List.length_append, List.length_singleton, Nat.sub_add_eq,
    ← h.valid.rest_length] at hrest'
  have hpos := List.length_pos_of_ne_nil hrest
  have heffort : ∀ left, (Consumer.idle : Consumer A T).effort left ≤ 9 := by
    intro left
    simp only [Consumer.effort]
    split_ifs <;> decide
  rw [State.work, State.work, hrest', hc]
  refine Nat.lt_of_le_of_lt (Nat.add_le_add_left (heffort _) _) ?_
  change 20 * (s.rest.length - 1 + s.chain.length) + 9 <
    20 * (s.rest.length + s.chain.length) + 2
  omega

/-- A pop from the oldest page goes on. -/
theorem Quiet.work_pop (h : Quiet s) (hrest : s.rest ≠ []) {s' : State A P T} {left : Pop T}
    {r : Ring P T} (hc : s.consumer = .pop a left) (hr : s.pages a = some r)
    (hpage : s.page a = .ok r) (hleft : s.left = r.reserved.length - r.taken)
    (hs' : PageQueue.consume s = .ok s') (hvalid : Valid s') :
    (s'.pushed = s.pushed ∧ Quiet s') ∧ s'.work < s.work := by
  have hring := h.valid.rings a r hr
  rw [hc, popAt_pop] at hring
  simp only [PageQueue.consume, hc, hpage] at hs'
  cases left with
  | idle =>
    cases hs'
    exact h.setConsumer hvalid rfl (by rw [hc]; simp [Consumer.effort])
  | barrier slot =>
    have hbarrier := hring.barrier
    simp only at hs'
    split_ifs at hs' hbarrier
    · cases hs'
      have hzero : s.left = 0 := by
        rw [hleft, hbarrier.1, h.published_eq hr, Nat.sub_self]
      exact h.setConsumer hvalid rfl (by rw [hc]; simp [Consumer.effort, hzero])
    · cases hs'
      exact h.setConsumer hvalid rfl (by rw [hc]; simp [Consumer.effort])
  | move slot =>
    obtain ⟨item, hread, -⟩ := hring.move
    simp only [hread] at hs'
    cases hs'
    exact h.setConsumer hvalid rfl (by rw [hc]; simp [Consumer.effort])
  | destroy slot item =>
    obtain ⟨storage, hstorage, -⟩ := hring.destroy
    simp only [hstorage] at hs'
    cases hs'
    refine ⟨⟨rfl, hvalid, h.idle, rfl⟩, ?_⟩
    have hrest' := hvalid.rest_length
    have htotal : (s.setPage a { r with storage := storage }).total = s.total :=
      total_setPage_same hr rfl
    change _ = (s.setPage a { r with storage := storage }).total.length - s.popped.length
      at hrest'
    rw [htotal, ← h.valid.rest_length] at hrest'
    rw [State.work, State.work, hrest', hc]
    exact Nat.lt_succ_self _
  | store slot item =>
    cases hs'
    exact ⟨⟨rfl, hvalid, h.idle, rfl⟩, h.work_store hrest hc hr hvalid⟩

omit [DecidableEq A] [DecidableEq P] in
theorem eq_of_chain {header : A} {chain rest : List A} (hchain : s.chain = a :: chain)
    (hsplit : s.chain = header :: rest) : header = a := by
  rw [hchain] at hsplit
  exact (List.cons.inj hsplit).1.symm

/-- Every step of the consumer goes through, and leaves less to be done. -/
theorem Quiet.consume (h : Quiet s) (hrest : s.rest ≠ []) :
    ∃ s', consume s = .ok s' ∧ (s'.pushed = s.pushed ∧ Quiet s') ∧ s'.work < s.work := by
  obtain ⟨s', hs', hvalid⟩ := h.valid.consume h.drained fun p => by
    rw [spares]
    split
    · rw [h.idle p]
      rfl
    · rfl
  refine ⟨s', hs', ?_⟩
  have hholds := h.valid.consumer
  obtain ⟨a, chain, hchain⟩ : ∃ a chain, s.chain = a :: chain := by
    cases hchain : s.chain with
    | nil => simp [State.rest, hchain] at hrest
    | cons a chain => exact ⟨a, chain, rfl⟩
  obtain ⟨r, hr, hpage⟩ := h.valid.page (a := a) (by rw [hchain]; exact List.mem_cons_self)
  have hring := h.valid.rings a r hr
  have hleft := left_of_chain hchain hr
  have hall := rest_of_chain hchain hr
  cases hc : s.consumer with
  | idle =>
    cases chain with
    | nil =>
      simp only [PageQueue.consume, hc, hchain, Except.ok.injEq] at hs'
      have hpos : s.left ≠ 0 := by
        rw [hleft]
        intro hzero
        rw [hall, List.drop_eq_nil_of_le (Nat.le_of_sub_eq_zero hzero)] at hrest
        exact hrest rfl
      rw [← hchain] at hs'
      subst hs'
      exact h.setConsumer hvalid rfl (by rw [hc]; simp [Consumer.effort, hpos])
    | cons b chain =>
      simp only [PageQueue.consume, hc, hchain, Except.ok.injEq] at hs'
      rw [← hchain] at hs'
      subst hs'
      refine h.setConsumer hvalid rfl ?_
      rw [hc]
      simp only [Consumer.effort]
      split_ifs <;> decide
  | loadRead header nextHeader =>
    rw [hc] at hholds
    obtain ⟨rest, hsplit⟩ := hholds
    obtain rfl := eq_of_chain hchain hsplit
    simp only [PageQueue.consume, hc, hpage, Except.ok.injEq] at hs'
    subst hs'
    refine h.setConsumer hvalid rfl ?_
    rw [hc]
    simp only [Consumer.effort]
    split_ifs <;> decide
  | loadWrite header nextHeader slot =>
    rw [hc] at hholds
    obtain ⟨⟨rest, hsplit⟩, hslot⟩ := hholds
    obtain rfl := eq_of_chain hchain hsplit
    simp only [PageQueue.consume, hc, hpage] at hs'
    rw [hslot r hr] at hs'
    split_ifs at hs' with heq
    · cases hs'
      refine h.setConsumer hvalid ?_ ?_
      · simp [PageQueue.drained, hr, heq]
      · rw [hc]
        simp only [Consumer.effort]
        split_ifs <;> decide
    · cases hs'
      refine h.setConsumer hvalid rfl ?_
      have hpos : s.left ≠ 0 := by
        rw [hleft]
        intro hzero
        have hle := hring.taken_le.trans hring.published_le
        have hlength : r.taken = r.reserved.length := by omega
        rw [hring.readi, hring.writei, hlength] at heq
        exact heq rfl
      rw [hc]
      simp [Consumer.effort, hpos]
  | release header nextHeader =>
    rw [hc] at hholds
    obtain ⟨rest, hsplit⟩ := hholds
    obtain rfl := eq_of_chain hchain hsplit
    exact h.work_release hc hsplit hr hpage hs' hvalid
  | pop header left =>
    rw [hc] at hholds
    obtain rfl : header = a := by
      have hhead : s.chain.head? = some header := hholds
      rw [hchain] at hhead
      exact (Option.some.inj hhead).symm
    exact h.work_pop hrest hc hr hpage hleft hs' hvalid

/-- Of every producer, the items that have been popped are the first ones it has pushed, in
the order of its pushes; when the calls have returned, a consumer that keeps popping gets
the other ones, too; and no step misuses a slot or a page that has been released. -/
structure Fifo (reserve : ℕ → ℕ) (s : State A P T) : Prop where
  popped : ∃ order : List (P × T), order.map Prod.snd = s.popped ∧
    ∀ p, order.filter (fun x => x.1 = p) <+: s.pushed.filter (fun x => x.1 = p)
  drains : (∀ p, s.producers p = .idle) → s.consumer = .idle →
    ∃ n s', runAll (step reserve) s (List.replicate n .consume) = .ok s' ∧
      ∃ order : List (P × T), order.map Prod.snd = s'.popped ∧
        ∀ p, order.filter (fun x => x.1 = p) = s.pushed.filter (fun x => x.1 = p)
  safe : ∀ action, Kept s action → ∃ s', step reserve s action = .ok s'

theorem Valid.fifo (h : Valid s) (reserve : ℕ → ℕ) : Fifo reserve s where
  popped := ⟨s.released ++ s.takenFrom, h.popped.symm, h.prefix⟩
  drains := fun hidle hconsumer => by
    have hquiet : Quiet s := ⟨h, hidle, by simp [drained, hconsumer]⟩
    have progress : ∀ {t : State A P T}, t.pushed = s.pushed ∧ Quiet t → ¬ t.rest = [] →
        ∃ u, PageQueue.step reserve t .consume = .ok u ∧ (u.pushed = s.pushed ∧ Quiet u) ∧
          u.work < t.work := by
      intro t ⟨hpushed, ht⟩ hrest
      obtain ⟨u, hu, ⟨hpushed', hquiet'⟩, hlt⟩ := ht.consume hrest
      exact ⟨u, hu, ⟨hpushed'.trans hpushed, hquiet'⟩, hlt⟩
    obtain ⟨n, s', hrun, ⟨hpushed, hquiet'⟩, hrest⟩ :=
      runAll_until _ _ _ State.work progress ⟨rfl, hquiet⟩
    refine ⟨n, s', hrun, s'.total, ?_, fun p => ?_⟩
    · rw [hquiet'.valid.popped, total_eq, hrest, List.append_nil]
    · rw [hquiet'.valid.order p, hpushed, hquiet'.idle p]
      simp [Producer.pending]
  safe := fun action haction => by
    obtain ⟨s', hs', -⟩ := h.step reserve haction
    exact ⟨s', hs'⟩

/-- While reservations find room and pages are released when nobody needs them, no item is
lost, returned twice or out of order, and no page is used after its release. -/
theorem pageQueue_fifo {reserve : ℕ → ℕ} {first : Option (A × ℕ)} {s : State A P T}
    (h : Reached (step reserve) Kept (State.initial reserve first) s) : Fifo reserve s := by
  have hvalid : Valid s :=
    h.invariant (initial_valid reserve first) fun {s s' action} hs hkept hs' => by
      obtain ⟨t, ht, hvalid⟩ := hs.step reserve hkept
      obtain rfl := Except.ok.inj (hs'.symm.trans ht)
      exact hvalid
  exact hvalid.fifo reserve

instance [Fintype P] (s : State A P T) (action : Action A P T) : Decidable (Kept s action) :=
  inferInstanceAs (Decidable (_ ∧ _ ∧ _))

/-- Steps of a producer; a page that it allocates gets the given address. -/
def produceAll {P : Type*} (p : P) (address n : ℕ) : List (Action ℕ P ℕ) :=
  List.replicate n (.produce p false (some address))

/-- A push that opens a page, and a pop. -/
theorem pageQueue_fifo_pop : ∃ s : State ℕ (Fin 1) ℕ,
    Reached (step clp2) Kept (State.initial clp2 (some (0, 1))) s ∧ s.popped = [10] ∧
      Fifo clp2 s := by
  have hrun : runAll (step clp2) (State.initial clp2 (some (0, 1)) : State ℕ (Fin 1) ℕ)
      (.push 0 10 :: (produceAll 0 1 10 ++ List.replicate 9 .consume)) = .ok _ := rfl
  have hreached : Reached (step clp2) Kept (State.initial clp2 (some (0, 1))) _ :=
    .runAll .start _ (by decide) hrun
  exact ⟨_, hreached, rfl, pageQueue_fifo hreached⟩

/-- Producer 1 is delayed before its reservation in the only page, while producer 2 fills that
page and opens the next one and the consumer drains and releases the first. -/
def delayedProducer : List (Action ℕ ℕ ℕ) :=
  .push 1 30 :: produceAll 1 1 3 ++ .push 2 10 :: produceAll 2 1 6 ++
    .push 2 20 :: produceAll 2 1 10 ++ List.replicate 15 .consume

/-- The reservation of the delayed producer goes to a page that has been released. -/
theorem pageQueue_reserves_released : ∃ s : State ℕ ℕ ℕ,
    runAll (step clp2) (State.initial clp2 (some (0, 2))) delayedProducer = .ok s ∧
      s.producers 1 = .exchange 30 0 0 1 ∧ s.pages 0 = none ∧
      step clp2 s (.produce 1 false none) = .error .released :=
  ⟨_, rfl, rfl, rfl, rfl⟩

end Fimbulwinter.PageQueue
