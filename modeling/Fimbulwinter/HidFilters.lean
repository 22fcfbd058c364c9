import Fimbulwinter.HidUi

/-! # Filters of devices and the states of contexts

The filters that are written when a state is set, and taken out when it is cleared. -/
namespace Fimbulwinter.Hid
open KeyedList

/-- A binding in a list applies to a control. -/
def Entries (s : State) (bs : List Binding) (c : Control) (e : Entry) : Prop :=
  ∃ b ∈ bs, ∃ mapping, s.findMapping b.mapping = some mapping ∧ mapping c ≠ 0 ∧
    e = b.entry (mapping c)

/-- A mapping that is bound to the active state of a context applies to a device. -/
def Applies (s : State) (x : Context) (d : Device) (c : Control) (e : Entry) : Prop :=
  d ∈ x.devices ∧ Entries s x.bindings c e

/-- The filters of devices are those of the mappings that are bound to the active states of the
contexts that hold them, with their callbacks and data, and none otherwise. -/
def Matches (s : State) : Prop :=
  ∀ p ∈ s.devices, ∀ c, (∀ q ∈ s.contexts, ∀ e, Applies s q.2 p.1 c e → p.2 c = e) ∧
    ((p.2 c).filter ≠ 0 → ∃ q ∈ s.contexts, Applies s q.2 p.1 c (p.2 c))

/-- No filter is added to a mapping while it applies to a device. -/
def Unapplied (s : State) (mapping : Token) : Prop :=
  ∀ q ∈ s.contexts, q.2.hasDeviceMappings → q.2.devices ≠ [] →
    ∀ b ∈ q.2.bindings, b.mapping ≠ mapping

/-- What a step must meet. -/
def Meets (s : State) : Action → Prop
  | .addAxisMove mapping _ _ _ | .addAxisTilt mapping _ _ _ | .addButtonPress mapping _ _
  | .addButtonRelease mapping _ _ => Unapplied s mapping
  | _ => True

/-- The contexts whose mappings are set are in the filters, each control by one context. -/
structure Sound (s : State) : Prop where
  deviceKeys : (s.devices.map Prod.fst).Nodup
  contextKeys : (s.contexts.map Prod.fst).Nodup
  nodup : ∀ q ∈ s.contexts, q.2.devices.Nodup
  known : ∀ q ∈ s.contexts, ∀ d ∈ q.2.devices, d ∈ s.devices.map Prod.fst
  unique : ∀ q ∈ s.contexts, ∀ q' ∈ s.contexts, q.2.hasDeviceMappings → q'.2.hasDeviceMappings →
    ∀ d c e e', Applies s q.2 d c e → Applies s q'.2 d c e' → q.1 = q'.1
  applied : ∀ p ∈ s.devices, ∀ c, ∀ q ∈ s.contexts, q.2.hasDeviceMappings →
    ∀ e, Applies s q.2 p.1 c e → p.2 c = e
  applies : ∀ p ∈ s.devices, ∀ c, (p.2 c).filter ≠ 0 →
    ∃ q ∈ s.contexts, q.2.hasDeviceMappings ∧ Applies s q.2 p.1 c (p.2 c)

theorem sound_initial : Sound State.initial where
  deviceKeys := .nil
  contextKeys := .nil
  nodup := nofun
  known := nofun
  unique := nofun
  applied := nofun
  applies := nofun

/-- When the mappings of all contexts are set, the filters match. -/
theorem Sound.matches {s : State} (h : Sound s) (hset : ∀ q ∈ s.contexts, q.2.hasDeviceMappings) :
    Matches s := by
  refine fun p hp c => ⟨fun q hq e he => h.applied p hp c q hq (hset q hq) e he, fun hne => ?_⟩
  obtain ⟨q, hq, -, happlies⟩ := h.applies p hp c hne
  exact ⟨q, hq, happlies⟩

/-! ## Writing -/

variable {s t : State}

@[simp] theorem entries_nil {c : Control} {e : Entry} : ¬ Entries s [] c e := by
  rintro ⟨b, hb, -⟩
  exact List.not_mem_nil hb

theorem entries_cons {b : Binding} {bs : List Binding} {mapping : Mapping} {c : Control} {e : Entry}
    (hfind : s.findMapping b.mapping = some mapping) :
    Entries s (b :: bs) c e ↔ (mapping c ≠ 0 ∧ e = b.entry (mapping c)) ∨ Entries s bs c e := by
  constructor
  · rintro ⟨b', hb', mapping', hfind', he⟩
    obtain rfl | hb' := List.mem_cons.mp hb'
    · obtain rfl := Option.some.inj (hfind.symm.trans hfind')
      exact .inl he
    · exact .inr ⟨b', hb', mapping', hfind', he⟩
  · rintro (he | ⟨b', hb', he⟩)
    · exact ⟨b, .head _, mapping, hfind, he⟩
    · exact ⟨b', .tail _ hb', he⟩

theorem writeBindings_cons {write : Binding → Mapping → DeviceMapping → Except Misuse DeviceMapping}
    {b : Binding} {bs : List Binding} {m m' : DeviceMapping}
    (h : writeBindings s write (b :: bs) m = .ok m') :
    ∃ mapping m₁, s.findMapping b.mapping = some mapping ∧ write b mapping m = .ok m₁ ∧
      writeBindings s write bs m₁ = .ok m' := by
  rw [writeBindings] at h
  split at h
  · cases h
  next mapping hfind =>
    split at h
    · cases h
    next m₁ hwrite => exact ⟨mapping, m₁, hfind, hwrite, h⟩

/-- A control is written by at most one mapping, and was free before. -/
theorem writeBindings_setMapping {bs : List Binding} {m m' : DeviceMapping}
    (h : writeBindings s setMapping bs m = .ok m') (c : Control) :
    ((∀ e, ¬ Entries s bs c e) ∧ m' c = m c) ∨
      ((m c).filter = 0 ∧ Entries s bs c (m' c) ∧ ∀ e, Entries s bs c e → e = m' c) := by
  induction bs generalizing m with
  | nil =>
    cases h
    exact .inl ⟨fun e => entries_nil, rfl⟩
  | cons b bs ih =>
    obtain ⟨mapping, m₁, hfind, hwrite, hrest⟩ := writeBindings_cons h
    simp only [setMapping] at hwrite
    split_ifs at hwrite with hfree
    obtain rfl := Except.ok.inj hwrite
    simp only [entries_cons hfind]
    by_cases hc : mapping c = 0
    · simpa [hc] using ih hrest
    · obtain ⟨hnone, hkept⟩ | ⟨hfree', -⟩ := ih hrest
      · rw [if_pos hc] at hkept
        refine .inr ⟨hfree c hc, .inl ⟨hc, hkept⟩, fun e he => ?_⟩
        obtain ⟨-, he⟩ | he := he
        · rw [he, hkept]
        · exact absurd he (hnone e)
      · rw [if_pos hc] at hfree'
        exact absurd hfree' hc

theorem writeBindings_clearMapping {bs : List Binding} {m m' : DeviceMapping}
    (h : writeBindings s clearMapping bs m = .ok m') (c : Control) :
    ((∀ e, ¬ Entries s bs c e) ∧ m' c = m c) ∨ ((∃ e, Entries s bs c e) ∧ (m' c).filter = 0) := by
  induction bs generalizing m with
  | nil =>
    cases h
    exact .inl ⟨fun e => entries_nil, rfl⟩
  | cons b bs ih =>
    obtain ⟨mapping, m₁, hfind, hwrite, hrest⟩ := writeBindings_cons h
    simp only [clearMapping] at hwrite
    split_ifs at hwrite with hset
    obtain rfl := Except.ok.inj hwrite
    simp only [entries_cons hfind]
    by_cases hc : mapping c = 0
    · simpa [hc] using ih hrest
    · have hentry : ∃ e, (mapping c ≠ 0 ∧ e = b.entry (mapping c)) ∨ Entries s bs c e :=
        ⟨_, .inl ⟨hc, rfl⟩⟩
      obtain ⟨-, hkept⟩ | ⟨-, hzero⟩ := ih hrest
      · rw [if_pos hc] at hkept
        exact .inr ⟨hentry, by rw [hkept]⟩
      · exact .inr ⟨hentry, hzero⟩

/-- The devices of a context are written, and the others kept. -/
theorem writeDevices_spec {write : Binding → Mapping → DeviceMapping → Except Misuse DeviceMapping}
    {bs : List Binding} {ds : List Device} {devices devices' : List (Device × DeviceMapping)}
    (hkeys : (devices.map Prod.fst).Nodup) (hnodup : ds.Nodup)
    (h : writeDevices s write bs ds devices = .ok devices') :
    devices'.map Prod.fst = devices.map Prod.fst ∧
      ∀ p' ∈ devices', ∃ m, (p'.1, m) ∈ devices ∧
        (p'.1 ∈ ds → writeBindings s write bs m = .ok p'.2) ∧ (p'.1 ∉ ds → p'.2 = m) := by
  induction ds generalizing devices with
  | nil =>
    cases h
    exact ⟨rfl, fun p' hp' => ⟨p'.2, hp', nofun, fun _ => rfl⟩⟩
  | cons d ds ih =>
    obtain ⟨hd, hnodup⟩ := List.nodup_cons.mp hnodup
    rw [writeDevices] at h
    split at h
    · cases h
    next d' m hfind =>
      obtain ⟨hmem, hd'⟩ := (find?_eq_some_iff hkeys).mp hfind
      split at h
      · cases h
      next m₁ hwrite =>
        have hsame : (modifyFirst (fun p => p.1 = d) (fun p => (p.1, m₁)) devices).map Prod.fst =
            devices.map Prod.fst := map_key_modifyFirst fun _ => rfl
        obtain ⟨hkeys', hspec⟩ := ih (hsame ▸ hkeys) hnodup h
        refine ⟨hkeys'.trans hsame, fun p' hp' => ?_⟩
        obtain ⟨m', hmem', hin, hout⟩ := hspec p' hp'
        obtain ⟨hmem', hne⟩ | ⟨p, hp, hpd, heq⟩ := (mem_modifyFirst_iff hkeys).mp hmem'
        · refine ⟨m', hmem', fun hp' => ?_, fun hp' => hout fun hp => hp' (.tail _ hp)⟩
          obtain heq | hp' := List.mem_cons.mp hp'
          · exact absurd heq hne
          · exact hin hp'
        · obtain ⟨hp', rfl⟩ := Prod.mk.inj heq
          have hpm : p = (d', m) := List.inj_on_of_nodup_map hkeys hp hmem (hpd.trans hd'.symm)
          refine ⟨m, ?_, fun _ => ?_, fun hp'' => ?_⟩
          · rw [hp', hpm]
            exact hmem
          · rw [hout (by rw [hp', hpd]; exact hd), hwrite]
          · exact absurd (List.mem_cons.mpr (.inl (hp'.trans hpd))) hp''

/-! ## Contexts -/

theorem Entries.filter_ne_zero {bs : List Binding} {c : Control} {e : Entry}
    (h : Entries s bs c e) : e.filter ≠ 0 := by
  obtain ⟨b, -, mapping, -, hne, rfl⟩ := h
  exact hne

theorem findContext_eq_some_iff (h : (s.contexts.map Prod.fst).Nodup) {context : Token}
    {x : Context} : s.findContext context = some x ↔ (context, x) ∈ s.contexts := by
  rw [State.findContext, Option.map_eq_some_iff]
  constructor
  · rintro ⟨q, hq, rfl⟩
    obtain ⟨hmem, rfl⟩ := (find?_eq_some_iff h).mp hq
    exact hmem
  · exact fun hmem => ⟨_, (find?_eq_some_iff h).mpr ⟨hmem, rfl⟩, rfl⟩

theorem Sound.context_eq (h : Sound s) {q : Token × Context} {context : Token} {x : Context}
    (hq : q ∈ s.contexts) (hx : (context, x) ∈ s.contexts) (hkey : q.1 = context) :
    q = (context, x) :=
  List.inj_on_of_nodup_map h.contextKeys hq hx hkey

theorem Sound.mem_modifyContext_iff (h : Sound s) {context : Token} {x : Context}
    (hx : (context, x) ∈ s.contexts) (u : State) (hu : u.contexts = s.contexts)
    {f : Context → Context} {q : Token × Context} :
    q ∈ (u.modifyContext context f).contexts ↔
      (q ∈ s.contexts ∧ q.1 ≠ context) ∨ q = (context, f x) := by
  rw [State.modifyContext, hu, mem_modifyFirst_iff h.contextKeys]
  refine or_congr_right ⟨?_, ?_⟩
  · rintro ⟨q', hq', hkey, rfl⟩
    rw [h.context_eq hq' hx hkey]
  · rintro rfl
    exact ⟨_, hx, rfl, rfl⟩

theorem Sound.applied_eq (h : Sound s) {d : Device} {m : DeviceMapping} (hm : (d, m) ∈ s.devices)
    {c : Control} {q : Token × Context} (hq : q ∈ s.contexts) (hset : q.2.hasDeviceMappings)
    {e : Entry} (he : Applies s q.2 d c e) : m c = e :=
  h.applied (d, m) hm c q hq hset e he

theorem Sound.context_nodup (h : Sound s) {context : Token} {x : Context}
    (hx : (context, x) ∈ s.contexts) : x.devices.Nodup :=
  h.nodup _ hx

theorem keys_modifyContext (s : State) (context : Token) (f : Context → Context) :
    (s.modifyContext context f).contexts.map Prod.fst = s.contexts.map Prod.fst :=
  map_key_modifyFirst fun _ => rfl

/-- The state after `set_device_mappings` or `clear_device_mappings`. -/
theorem writeDeviceMappings_ok
    {write : Binding → Mapping → DeviceMapping → Except Misuse DeviceMapping} {flag : Bool}
    {context : Token} (h : writeDeviceMappings write flag s context = .ok t) :
    ∃ x devices, s.findContext context = some x ∧ x.hasDeviceMappings = !flag ∧
      writeDevices s write x.bindings x.devices s.devices = .ok devices ∧
      t = State.modifyContext { s with devices := devices } context
        fun x => { x with hasDeviceMappings := flag } := by
  rw [writeDeviceMappings] at h
  split at h
  · cases h
  next x hx =>
    split_ifs at h with hflag
    split at h
    · cases h
    next devices hwrite =>
      exact ⟨x, devices, hx, Bool.eq_not_of_ne hflag, hwrite, (Except.ok.inj h).symm⟩

/-- Nothing but flags and unset contexts changes, or devices without filters are added, or
devices are left out. -/
theorem Sound.of_same (h : Sound s) (hdeviceKeys : (t.devices.map Prod.fst).Nodup)
    (hcontextKeys : (t.contexts.map Prod.fst).Nodup)
    (hnodup : ∀ q ∈ t.contexts, q.2.devices.Nodup)
    (hknown : ∀ q ∈ t.contexts, ∀ d ∈ q.2.devices, d ∈ t.devices.map Prod.fst)
    (hdevices : ∀ p ∈ t.devices, p ∈ s.devices ∨
      (∀ c, (p.2 c).filter = 0) ∧ ∀ q ∈ t.contexts, p.1 ∉ q.2.devices)
    (hold : ∀ q ∈ t.contexts, q.2.hasDeviceMappings → ∃ q' ∈ s.contexts,
      q'.2.hasDeviceMappings ∧ q'.1 = q.1 ∧ ∀ d c e, Applies t q.2 d c e → Applies s q'.2 d c e)
    (hnew : ∀ q ∈ s.contexts, q.2.hasDeviceMappings → ∃ q' ∈ t.contexts,
      q'.2.hasDeviceMappings ∧ ∀ d c e, Applies s q.2 d c e → Applies t q'.2 d c e) :
    Sound t where
  deviceKeys := hdeviceKeys
  contextKeys := hcontextKeys
  nodup := hnodup
  known := hknown
  unique := fun q hq q' hq' hset hset' d c e e' he he' => by
    obtain ⟨r, hr, hrset, hkey, happlies⟩ := hold q hq hset
    obtain ⟨r', hr', hrset', hkey', happlies'⟩ := hold q' hq' hset'
    rw [← hkey, ← hkey']
    exact h.unique r hr r' hr' hrset hrset' d c e e' (happlies d c e he) (happlies' d c e' he')
  applied := fun p hp c q hq hset e he => by
    obtain hp | ⟨-, hnone⟩ := hdevices p hp
    · obtain ⟨r, hr, hrset, -, happlies⟩ := hold q hq hset
      exact h.applied p hp c r hr hrset e (happlies p.1 c e he)
    · exact absurd he.1 (hnone q hq)
  applies := fun p hp c hne => by
    obtain hp | ⟨hzero, -⟩ := hdevices p hp
    · obtain ⟨q, hq, hset, he⟩ := h.applies p hp c hne
      obtain ⟨r, hr, hrset, happlies⟩ := hnew q hq hset
      exact ⟨r, hr, hrset, happlies p.1 c _ he⟩
    · exact absurd (hzero c) hne

/-- A context changes that is not set, or what is set of it stays. -/
theorem Sound.modifyContext (h : Sound s) {context : Token} {x : Context}
    (hx : (context, x) ∈ s.contexts) {f : Context → Context} (hnodup : (f x).devices.Nodup)
    (hknown : ∀ d ∈ (f x).devices, d ∈ s.devices.map Prod.fst)
    (hflag : (f x).hasDeviceMappings = x.hasDeviceMappings)
    (hset : x.hasDeviceMappings → (f x).devices = x.devices ∧ (f x).bindings = x.bindings) :
    Sound (s.modifyContext context f) := by
  have hmem : ∀ q, q ∈ (s.modifyContext context f).contexts ↔
      (q ∈ s.contexts ∧ q.1 ≠ context) ∨ q = (context, f x) := fun q =>
    h.mem_modifyContext_iff hx s rfl
  have happlies : x.hasDeviceMappings → ∀ d c e,
      Applies (s.modifyContext context f) (f x) d c e ↔ Applies s x d c e := by
    intro hflagged d c e
    obtain ⟨hdevices, hbindings⟩ := hset hflagged
    rw [Applies, Applies, hdevices, hbindings]
    exact Iff.rfl
  refine h.of_same h.deviceKeys ?_ ?_ ?_ (fun p hp => .inl hp) ?_ ?_
  · rw [keys_modifyContext]
    exact h.contextKeys
  · intro q hq
    obtain ⟨hq, -⟩ | rfl := (hmem q).mp hq
    · exact h.nodup q hq
    · exact hnodup
  · intro q hq
    obtain ⟨hq, -⟩ | rfl := (hmem q).mp hq
    · exact h.known q hq
    · exact hknown
  · intro q hq hflagged
    obtain ⟨hq, -⟩ | rfl := (hmem q).mp hq
    · exact ⟨q, hq, hflagged, rfl, fun d c e he => he⟩
    · have hflagged' : x.hasDeviceMappings := hflag ▸ hflagged
      exact ⟨_, hx, hflagged', rfl, fun d c e he => (happlies hflagged' d c e).mp he⟩
  · intro q hq hflagged
    by_cases hkey : q.1 = context
    · obtain rfl := h.context_eq hq hx hkey
      exact ⟨_, (hmem _).mpr (.inr rfl), hflag ▸ hflagged,
        fun d c e he => (happlies hflagged d c e).mpr he⟩
    · exact ⟨q, (hmem q).mpr (.inl ⟨hq, hkey⟩), hflagged,
        fun d c e he => he⟩

/-- The flag of a context changes with the devices, which keep their keys; what is left is about
the filters. -/
theorem Sound.rewritten (h : Sound s) {context : Token} {x : Context} (hx : (context, x) ∈ s.contexts)
    {devices : List (Device × DeviceMapping)} {flag : Bool}
    (hkeys : devices.map Prod.fst = s.devices.map Prod.fst)
    (ht : t = State.modifyContext { s with devices := devices } context
      fun x => { x with hasDeviceMappings := flag })
    (hunique : ∀ q ∈ t.contexts, ∀ q' ∈ t.contexts, q.2.hasDeviceMappings → q'.2.hasDeviceMappings →
      ∀ d c e e', Applies s q.2 d c e → Applies s q'.2 d c e' → q.1 = q'.1)
    (happlied : ∀ p ∈ devices, ∀ c, ∀ q ∈ t.contexts, q.2.hasDeviceMappings →
      ∀ e, Applies s q.2 p.1 c e → p.2 c = e)
    (happlies : ∀ p ∈ devices, ∀ c, (p.2 c).filter ≠ 0 →
      ∃ q ∈ t.contexts, q.2.hasDeviceMappings ∧ Applies s q.2 p.1 c (p.2 c)) : Sound t := by
  subst ht
  have hxnodup := h.context_nodup hx
  have hmem := fun q => h.mem_modifyContext_iff hx { s with devices := devices } rfl
    (f := fun x => { x with hasDeviceMappings := flag }) (q := q)
  refine ⟨hkeys ▸ h.deviceKeys, ?_, ?_, ?_, hunique, happlied, happlies⟩
  · rw [keys_modifyContext]
    exact h.contextKeys
  · intro q hq
    obtain ⟨hq, -⟩ | rfl := (hmem q).mp hq
    · exact h.nodup q hq
    · exact hxnodup
  · intro q hq d hd
    refine hkeys.symm ▸ ?_
    obtain ⟨hq, -⟩ | rfl := (hmem q).mp hq
    · exact h.known q hq d hd
    · exact h.known _ hx d hd

/-- The mappings of a context are set. -/
theorem Sound.set (h : Sound s) {context : Token} (ht : setDeviceMappings s context = .ok t) :
    Sound t := by
  obtain ⟨x, devices, hfind, hflag, hwrite, rfl⟩ := writeDeviceMappings_ok ht
  have hx := (findContext_eq_some_iff h.contextKeys).mp hfind
  have hxnodup := h.context_nodup hx
  obtain ⟨hkeys, hspec⟩ := writeDevices_spec h.deviceKeys hxnodup hwrite
  have hmem : ∀ q, q ∈ (State.modifyContext { s with devices := devices } context
      fun x => { x with hasDeviceMappings := true }).contexts ↔
      (q ∈ s.contexts ∧ q.1 ≠ context) ∨ q = (context, { x with hasDeviceMappings := true }) :=
    fun q => h.mem_modifyContext_iff hx { s with devices := devices } rfl
  -- What the context applies was free before.
  have hfree : ∀ q ∈ s.contexts, q.2.hasDeviceMappings → ∀ d c e e', Applies s x d c e →
      ¬ Applies s q.2 d c e' := by
    intro q hq hset d c e e' he he'
    obtain ⟨p', hp', rfl⟩ := List.mem_map.mp (hkeys ▸ h.known _ hx d he.1)
    obtain ⟨m, hm, hin, -⟩ := hspec p' hp'
    obtain ⟨hnone, -⟩ | ⟨hzero, -⟩ := writeBindings_setMapping (hin he.1) c
    · exact hnone e he.2
    · rw [h.applied_eq hm hq hset he'] at hzero
      exact he'.2.filter_ne_zero hzero
  refine h.rewritten hx hkeys rfl ?_ ?_ ?_
  · intro q hq q' hq' hset hset' d c e e' he he'
    obtain ⟨hq, -⟩ | rfl := (hmem q).mp hq
    · obtain ⟨hq', -⟩ | rfl := (hmem q').mp hq'
      · exact h.unique q hq q' hq' hset hset' d c e e' he he'
      · exact absurd he (hfree q hq hset d c e' e he')
    · obtain ⟨hq', -⟩ | rfl := (hmem q').mp hq'
      · exact absurd he' (hfree q' hq' hset' d c e e' he)
      · rfl
  · intro p hp c q hq hset e he
    obtain ⟨m, hm, hin, hout⟩ := hspec p hp
    by_cases hd : p.1 ∈ x.devices
    · obtain ⟨hnone, hkept⟩ | ⟨hzero, -, hall⟩ := writeBindings_setMapping (hin hd) c
      · obtain ⟨hq, -⟩ | rfl := (hmem q).mp hq
        · rw [hkept]
          exact h.applied_eq hm hq hset he
        · exact absurd he.2 (hnone e)
      · obtain ⟨hq, -⟩ | rfl := (hmem q).mp hq
        · rw [h.applied_eq hm hq hset he] at hzero
          exact absurd hzero he.2.filter_ne_zero
        · exact (hall e he.2).symm
    · obtain ⟨hq, -⟩ | rfl := (hmem q).mp hq
      · rw [hout hd]
        exact h.applied_eq hm hq hset he
      · exact absurd he.1 hd
  · intro p hp c hne
    obtain ⟨m, hm, hin, hout⟩ := hspec p hp
    have hkeep : p.2 c = m c → ∃ q ∈ (State.modifyContext { s with devices := devices } context
        fun x => { x with hasDeviceMappings := true }).contexts,
        q.2.hasDeviceMappings ∧ Applies s q.2 p.1 c (p.2 c) := by
      intro hkept
      rw [hkept] at hne ⊢
      obtain ⟨q, hq, hset, he⟩ := h.applies _ hm c hne
      refine ⟨q, (hmem q).mpr (.inl ⟨hq, fun hkey => ?_⟩), hset, he⟩
      rw [h.context_eq hq hx hkey, hflag] at hset
      exact absurd hset (by decide)
    by_cases hd : p.1 ∈ x.devices
    · obtain ⟨-, hkept⟩ | ⟨-, he, -⟩ := writeBindings_setMapping (hin hd) c
      · exact hkeep hkept
      · exact ⟨_, (hmem _).mpr (.inr rfl), rfl, hd, he⟩
    · exact hkeep (congrFun (hout hd) c)

/-- The mappings of a context are cleared. -/
theorem Sound.clear (h : Sound s) {context : Token} (ht : clearDeviceMappings s context = .ok t) :
    Sound t := by
  obtain ⟨x, devices, hfind, hflag, hwrite, rfl⟩ := writeDeviceMappings_ok ht
  have hx := (findContext_eq_some_iff h.contextKeys).mp hfind
  have hxnodup := h.context_nodup hx
  obtain ⟨hkeys, hspec⟩ := writeDevices_spec h.deviceKeys hxnodup hwrite
  have hmem : ∀ q, q ∈ (State.modifyContext { s with devices := devices } context
      fun x => { x with hasDeviceMappings := false }).contexts ↔
      (q ∈ s.contexts ∧ q.1 ≠ context) ∨ q = (context, { x with hasDeviceMappings := false }) :=
    fun q => h.mem_modifyContext_iff hx { s with devices := devices } rfl
  have hmemSet : ∀ q ∈ (State.modifyContext { s with devices := devices } context
      fun x => { x with hasDeviceMappings := false }).contexts, q.2.hasDeviceMappings →
      q ∈ s.contexts ∧ q.1 ≠ context := by
    intro q hq hset
    obtain hq | rfl := (hmem q).mp hq
    · exact hq
    · exact absurd hset Bool.false_ne_true
  refine h.rewritten hx hkeys rfl ?_ ?_ ?_
  · intro q hq q' hq' hset hset' d c e e' he he'
    exact h.unique q (hmemSet q hq hset).1 q' (hmemSet q' hq' hset').1 hset hset' d c e e' he he'
  · intro p hp c q hq hset e he
    obtain ⟨hq, hkey⟩ := hmemSet q hq hset
    obtain ⟨m, hm, hin, hout⟩ := hspec p hp
    by_cases hd : p.1 ∈ x.devices
    · obtain ⟨-, hkept⟩ | ⟨⟨e', he'⟩, -⟩ := writeBindings_clearMapping (hin hd) c
      · rw [hkept]
        exact h.applied_eq hm hq hset he
      · exact absurd (h.unique q hq _ hx hset hflag p.1 c e e' he ⟨hd, he'⟩) hkey
    · rw [hout hd]
      exact h.applied_eq hm hq hset he
  · intro p hp c hne
    obtain ⟨m, hm, hin, hout⟩ := hspec p hp
    have hkeep : (∀ e, ¬ Applies s x p.1 c e) → p.2 c = m c →
        ∃ q ∈ (State.modifyContext { s with devices := devices } context
          fun x => { x with hasDeviceMappings := false }).contexts,
          q.2.hasDeviceMappings ∧ Applies s q.2 p.1 c (p.2 c) := by
      intro hnone hkept
      rw [hkept] at hne ⊢
      obtain ⟨q, hq, hset, he⟩ := h.applies _ hm c hne
      refine ⟨q, (hmem q).mpr (.inl ⟨hq, fun hkey => ?_⟩), hset, he⟩
      rw [h.context_eq hq hx hkey] at he
      exact hnone _ he
    by_cases hd : p.1 ∈ x.devices
    · obtain ⟨hnone, hkept⟩ | ⟨-, hzero⟩ := writeBindings_clearMapping (hin hd) c
      · exact hkeep (fun e he => hnone e he.2) hkept
      · exact absurd hzero hne
    · exact hkeep (fun e he => hd he.1) (congrFun (hout hd) c)

/-! ## Steps -/

theorem changeContext_ok (hkeys : (s.contexts.map Prod.fst).Nodup) {context : Token}
    {check : Context → Bool} {f : Context → Context} (h : changeContext context check f s = .ok t) :
    ∃ x, (context, x) ∈ s.contexts ∧ check x ∧ t = s.modifyContext context f := by
  rw [changeContext] at h
  split at h
  · cases h
  next x hx =>
    split_ifs at h with hcheck
    exact ⟨x, (findContext_eq_some_iff hkeys).mp hx, hcheck, (Except.ok.inj h).symm⟩

/-- A context is cleared where it is set and the condition holds, before it is changed. -/
theorem Sound.clearThen (h : Sound s) {context : Token} {condition : Context → Bool}
    {change : State → Except Misuse State} (ht : clearThen s context condition change = .ok t) :
    ∃ u, Sound u ∧ change u = .ok t ∧
      ((∀ x, condition x) → ∀ x, (context, x) ∈ u.contexts → x.hasDeviceMappings = false) := by
  rw [Hid.clearThen] at ht
  split at ht
  · cases ht
  next x hfind =>
    have hx := (findContext_eq_some_iff h.contextKeys).mp hfind
    split_ifs at ht with hset
    · split at ht
      · cases ht
      next u hu =>
        refine ⟨u, h.clear hu, ht, fun _ x' hx' => ?_⟩
        obtain ⟨y, devices, hy, -, -, rfl⟩ := writeDeviceMappings_ok hu
        obtain ⟨-, hne⟩ | heq := (h.mem_modifyContext_iff
          ((findContext_eq_some_iff h.contextKeys).mp hy) { s with devices := devices } rfl).mp hx'
        · exact absurd rfl hne
        · rw [(Prod.mk.inj heq).2]
    · refine ⟨s, h, ht, fun hall x' hx' => ?_⟩
      rw [(Prod.mk.inj (h.context_eq hx' hx rfl)).2]
      simpa [hall x] using hset

theorem Sound.contextAddDevice (h : Sound s) {id : Device} {context : Token}
    (ht : contextAddDevice id context s = .ok t) : Sound t := by
  obtain ⟨x, hx, hcheck, rfl⟩ := changeContext_ok h.contextKeys ht
  simp only [Bool.and_eq_true, Bool.not_eq_true', decide_eq_true_eq] at hcheck
  obtain ⟨⟨hunset, hid⟩, hnew⟩ := hcheck
  refine h.modifyContext hx ?_ ?_ rfl fun hset => by simp [hunset] at hset
  · rw [← List.concat_eq_append]
    exact (h.context_nodup hx).concat hnew
  · intro d hd
    obtain hd | hd := List.mem_append.mp hd
    · exact h.known _ hx d hd
    · rwa [List.mem_singleton.mp hd]

theorem Sound.contextRemoveDevice (h : Sound s) {id : Device} {context : Token}
    (ht : contextRemoveDevice id context s = .ok t) : Sound t := by
  obtain ⟨x, hx, hcheck, rfl⟩ := changeContext_ok h.contextKeys ht
  simp only [Bool.and_eq_true, Bool.not_eq_true', decide_eq_true_eq] at hcheck
  refine h.modifyContext hx ((h.context_nodup hx).erase id) (fun d hd => ?_) rfl
    fun hset => by simp [hcheck.1.1] at hset
  exact h.known _ hx d (List.mem_of_mem_erase hd)

theorem Sound.setActive (h : Sound s) {context state : Token}
    (ht : setActive context state s = .ok t) : Sound t := by
  obtain ⟨x, hx, hcheck, rfl⟩ := changeContext_ok h.contextKeys ht
  simp only [Bool.and_eq_true, Bool.not_eq_true', decide_eq_true_eq] at hcheck
  have hnodup := h.context_nodup hx
  exact h.modifyContext hx hnodup (h.known (context, x) hx) rfl
    fun hset => by simp [hcheck.1] at hset

/-- The bindings of another state than the active one change. -/
theorem bindings_modifyFirst {x : Context} {state : Token} (hactive : x.IsActive state = false)
    (f : Token × List Binding → Token × List Binding) :
    ({ x with states := modifyFirst (fun p => p.1 = state) f x.states } : Context).bindings =
      x.bindings := by
  simp only [Context.IsActive] at hactive
  simp only [Context.bindings]
  cases hget : x.states[x.active]? with
  | none =>
    rw [List.getElem?_eq_none_iff] at hget
    rw [List.getElem?_eq_none_iff.mpr (by rwa [length_modifyFirst])]
  | some p =>
    rw [hget] at hactive
    rw [getElem?_modifyFirst hget (by simpa using hactive)]

theorem Sound.changeBindings (h : Sound s) {context state : Token} {check : List Binding → Bool}
    {f : List Binding → List Binding} (ht : changeBindings context state check f s = .ok t) :
    Sound t := by
  obtain ⟨x, hx, hcheck, rfl⟩ := changeContext_ok h.contextKeys ht
  have hnodup := h.context_nodup hx
  refine h.modifyContext hx hnodup (h.known (context, x) hx) rfl fun hset => ⟨rfl, ?_⟩
  rw [hset, Bool.and_eq_true, Bool.not_true, Bool.false_or, Bool.not_eq_true'] at hcheck
  exact bindings_modifyFirst hcheck.1 _

theorem Sound.removeContext (h : Sound s) {context : Token}
    (hunset : ∀ x, (context, x) ∈ s.contexts → x.hasDeviceMappings = false)
    (ht : removeContext context s = .ok t) : Sound t := by
  have hfields : t.devices = s.devices ∧ t.mappings = s.mappings ∧
      t.contexts = s.contexts.eraseP fun p => p.1 = context := by
    simp only [Hid.removeContext] at ht
    split_ifs at ht
    · obtain rfl := Except.ok.inj ht
      exact ⟨rfl, rfl, rfl⟩
    · obtain rfl := Except.ok.inj ht
      exact ⟨rfl, rfl, rfl⟩
  obtain ⟨hdevices, hmappings, hcontexts⟩ := hfields
  have hmem : ∀ q, q ∈ t.contexts ↔ q ∈ s.contexts ∧ q.1 ≠ context := fun q => by
    rw [hcontexts, eraseP_eq_filter h.contextKeys, List.mem_filter, decide_eq_true_iff]
  have happlies : ∀ x d c e, Applies t x d c e ↔ Applies s x d c e := fun x d c e => by
    simp only [Applies, Entries, State.findMapping, hmappings]
  refine h.of_same (hdevices ▸ h.deviceKeys) ?_ (fun q hq => h.nodup q ((hmem q).mp hq).1)
    (fun q hq d hd => hdevices ▸ h.known q ((hmem q).mp hq).1 d hd)
    (fun p hp => .inl (hdevices ▸ hp))
    (fun q hq hset => ⟨q, ((hmem q).mp hq).1, hset, rfl, fun d c e => (happlies _ d c e).mp⟩)
    (fun q hq hset => ⟨q, (hmem q).mpr ⟨hq, ?_⟩, hset, fun d c e => (happlies _ d c e).mpr⟩)
  · rw [hcontexts]
    exact h.contextKeys.sublist (List.eraseP_sublist.map _)
  · rintro rfl
    rw [hunset q.2 hq] at hset
    exact absurd hset Bool.false_ne_true

theorem Sound.addContext (h : Sound s) {context : Token} {states : List Token}
    (ht : addContext s context states = .ok t) : Sound t := by
  simp only [Hid.addContext] at ht
  split_ifs at ht with hcheck hfirst
  · obtain rfl := Except.ok.inj ht
    refine h.of_same h.deviceKeys (List.nodup_singleton _) ?_ ?_ (fun p hp => .inl hp) ?_ ?_
    · intro q hq
      obtain rfl := List.mem_singleton.mp hq
      exact h.deviceKeys
    · intro q hq d hd
      obtain rfl := List.mem_singleton.mp hq
      exact hd
    · intro q hq hset
      obtain rfl := List.mem_singleton.mp hq
      exact absurd hset Bool.false_ne_true
    · intro q hq
      rw [hfirst] at hq
      cases hq
  · obtain rfl := Except.ok.inj ht
    have hmem : ∀ q ∈ s.contexts ++ [(context, (⟨0, false, states.map fun state => (state, []), []⟩ :
        Context))], q ∈ s.contexts ∨ q.2.hasDeviceMappings = false ∧ q.2.devices = [] := by
      intro q hq
      obtain hq | hq := List.mem_append.mp hq
      · exact .inl hq
      · obtain rfl := List.mem_singleton.mp hq
        exact .inr ⟨rfl, rfl⟩
    refine h.of_same h.deviceKeys ?_ ?_ ?_ (fun p hp => .inl hp) ?_ ?_
    · rw [List.map_append, List.map_singleton, ← List.concat_eq_append]
      exact h.contextKeys.concat fun hmem => hcheck (.inl hmem)
    · intro q hq
      obtain hq | ⟨-, hnil⟩ := hmem q hq
      · exact h.nodup q hq
      · rw [hnil]
        exact .nil
    · intro q hq d hd
      obtain hq | ⟨-, hnil⟩ := hmem q hq
      · exact h.known q hq d hd
      · rw [hnil] at hd
        cases hd
    · intro q hq hset
      obtain hq | ⟨hunset, -⟩ := hmem q hq
      · exact ⟨q, hq, hset, rfl, fun d c e he => he⟩
      · rw [hunset] at hset
        exact absurd hset Bool.false_ne_true
    · exact fun q hq hset => ⟨q, List.mem_append_left _ hq, hset, fun d c e he => he⟩

theorem addOrFindMapping_fields (s : State) (mapping : Token) :
    (addOrFindMapping s mapping).devices = s.devices ∧
      (addOrFindMapping s mapping).contexts = s.contexts ∧ ∀ other, other ≠ mapping →
        (addOrFindMapping s mapping).findMapping other = s.findMapping other := by
  rw [addOrFindMapping]
  split_ifs
  · exact ⟨rfl, rfl, fun _ _ => rfl⟩
  · refine ⟨rfl, rfl, fun other hother => ?_⟩
    rw [State.findMapping, State.findMapping, List.find?_append, List.find?_singleton,
      if_neg (by simpa using hother.symm), Option.or_none]

theorem addFilter_ok {mapping : Token} {c : Control} {kind : Fin 4} {x : FilterKind kind}
    (h : addFilter s mapping c kind x = .ok t) : t.devices = s.devices ∧ t.contexts = s.contexts ∧
      ∀ other, other ≠ mapping → t.findMapping other = s.findMapping other := by
  obtain ⟨hdevices, hcontexts, hfind⟩ := addOrFindMapping_fields s mapping
  rw [addFilter] at h
  split at h
  · cases h
  next filters done hemplace =>
    dsimp only at h
    split_ifs at h
    obtain rfl := Except.ok.inj h
    refine ⟨hdevices, hcontexts, fun other hother => ?_⟩
    have hsame : ∀ p : Token × Mapping,
        Prod.fst (p.1, Function.update p.2 c s.nextAvailableFilter) = Prod.fst p := fun _ => rfl
    rw [← hfind other hother]
    exact congrArg (Option.map Prod.snd) (find?_modifyFirst_of_ne hsame hother)

theorem Sound.addFilter (h : Sound s) {mapping : Token} {c : Control} {kind : Fin 4}
    {x : FilterKind kind} (hmeets : Unapplied s mapping)
    (ht : addFilter s mapping c kind x = .ok t) : Sound t := by
  obtain ⟨hdevices, hcontexts, hfind⟩ := addFilter_ok ht
  have happlies : ∀ q ∈ s.contexts, q.2.hasDeviceMappings → ∀ d c e,
      Applies t q.2 d c e ↔ Applies s q.2 d c e := by
    refine fun q hq hset d c e => and_congr_right fun hd => ?_
    refine exists_congr fun b => and_congr_right fun hb => ?_
    rw [hfind b.mapping (hmeets q hq hset (List.ne_nil_of_mem hd) b hb)]
  exact h.of_same (hdevices ▸ h.deviceKeys) (hcontexts ▸ h.contextKeys) (hcontexts ▸ h.nodup)
    (hcontexts ▸ hdevices ▸ h.known) (fun p hp => .inl (hdevices ▸ hp))
    (fun q hq hset => ⟨q, hcontexts ▸ hq, hset, rfl, fun d c e =>
      (happlies q (hcontexts ▸ hq) hset d c e).mp⟩)
    (fun q hq hset => ⟨q, hcontexts ▸ hq, hset, fun d c e => (happlies q hq hset d c e).mpr⟩)

theorem foldlM_cons_ok {f : State → Token → Except Misuse State} {context : Token}
    {contexts : List Token} (h : (context :: contexts).foldlM f s = .ok t) :
    ∃ u, f s context = .ok u ∧ contexts.foldlM f u = .ok t := by
  rw [List.foldlM_cons] at h
  cases hu : f s context with
  | error e =>
    rw [hu] at h
    cases h
  | ok u =>
    rw [hu] at h
    exact ⟨u, rfl, h⟩

/-- After a round of the loop the context is set, and the others as they were. -/
theorem Sound.setUnset (h : Sound s) {context : Token} (ht : setUnset s context = .ok t) :
    Sound t ∧ t.contexts.map Prod.fst = s.contexts.map Prod.fst ∧
      ∀ q ∈ t.contexts, q.2.hasDeviceMappings ∨ (q ∈ s.contexts ∧ q.1 ≠ context) := by
  rw [Hid.setUnset] at ht
  split at ht
  · cases ht
  next x hfind =>
    have hx := (findContext_eq_some_iff h.contextKeys).mp hfind
    split_ifs at ht with hset
    · obtain rfl := Except.ok.inj ht
      refine ⟨h, rfl, fun q hq => ?_⟩
      by_cases hkey : q.1 = context
      · rw [h.context_eq hq hx hkey]
        exact .inl hset
      · exact .inr ⟨hq, hkey⟩
    · refine ⟨h.set ht, ?_⟩
      obtain ⟨y, devices, hy, -, -, rfl⟩ := writeDeviceMappings_ok ht
      refine ⟨keys_modifyContext _ _ _, fun q hq => ?_⟩
      obtain hq | rfl := (h.mem_modifyContext_iff
        ((findContext_eq_some_iff h.contextKeys).mp hy) { s with devices := devices } rfl).mp hq
      · exact .inr hq
      · exact .inl rfl

theorem Sound.setAll (h : Sound s) {contexts : List Token}
    (ht : contexts.foldlM Hid.setUnset s = .ok t) :
    Sound t ∧ t.contexts.map Prod.fst = s.contexts.map Prod.fst ∧
      ∀ q ∈ t.contexts, q.2.hasDeviceMappings ∨ (q ∈ s.contexts ∧ q.1 ∉ contexts) := by
  induction contexts generalizing s with
  | nil =>
    cases ht
    exact ⟨h, rfl, fun q hq => .inr ⟨hq, List.not_mem_nil⟩⟩
  | cons context contexts ih =>
    obtain ⟨u, hu, hrest⟩ := foldlM_cons_ok ht
    obtain ⟨hsound, hkeys, hround⟩ := h.setUnset hu
    obtain ⟨hsound', hkeys', hrounds⟩ := ih hsound hrest
    refine ⟨hsound', hkeys'.trans hkeys, fun q hq => ?_⟩
    obtain hset | ⟨hq, hnot⟩ := hrounds q hq
    · exact .inl hset
    · refine (hround q hq).imp_right fun ⟨hq, hne⟩ => ⟨hq, fun hmem => ?_⟩
      exact (List.mem_cons.mp hmem).elim hne hnot

theorem keys_writeDeviceMappings
    {write : Binding → Mapping → DeviceMapping → Except Misuse DeviceMapping} {flag : Bool}
    {context : Token} (h : writeDeviceMappings write flag s context = .ok t) :
    t.contexts.map Prod.fst = s.contexts.map Prod.fst := by
  obtain ⟨x, devices, -, -, -, rfl⟩ := writeDeviceMappings_ok h
  exact keys_modifyContext _ _ _

/-- Contexts hold the devices that they held before they were set or cleared. -/
theorem holds_writeDeviceMappings
    {write : Binding → Mapping → DeviceMapping → Except Misuse DeviceMapping} {flag : Bool}
    {context : Token} (h : writeDeviceMappings write flag s context = .ok t) :
    ∀ q ∈ t.contexts, ∃ q' ∈ s.contexts, q'.1 = q.1 ∧ q'.2.devices = q.2.devices := by
  obtain ⟨x, devices, -, -, -, rfl⟩ := writeDeviceMappings_ok h
  intro q hq
  obtain hq | ⟨q', hq', rfl⟩ := exists_of_mem_modifyFirst hq
  · exact ⟨q, hq, rfl, rfl⟩
  · exact ⟨q', hq', rfl, rfl⟩

/-- After a round of the loop the context does not hold the lost device. -/
theorem Sound.loseFrom (h : Sound s) {id : Device} {context : Token}
    (ht : loseFrom id s context = .ok t) :
    Sound t ∧ t.contexts.map Prod.fst = s.contexts.map Prod.fst ∧
      ∀ q ∈ t.contexts, id ∈ q.2.devices →
        q.1 ≠ context ∧ ∃ q' ∈ s.contexts, q'.1 = q.1 ∧ id ∈ q'.2.devices := by
  rw [Hid.loseFrom] at ht
  split at ht
  · cases ht
  next x hfind =>
    have hx := (findContext_eq_some_iff h.contextKeys).mp hfind
    split_ifs at ht with hheld
    · split at ht
      · cases ht
      next u hu =>
        split at ht
        · cases ht
        next v hv =>
          have hcleared := h.clear hu
          refine ⟨(hcleared.contextRemoveDevice hv).set ht, ?_, fun q hq hid => ?_⟩
          · obtain ⟨y, hy, -, rfl⟩ := changeContext_ok hcleared.contextKeys hv
            rw [keys_writeDeviceMappings ht, keys_modifyContext, keys_writeDeviceMappings hu]
          · obtain ⟨q₁, hq₁, hkey₁, hdevices₁⟩ := holds_writeDeviceMappings ht q hq
            rw [← hdevices₁] at hid
            rw [← hkey₁]
            obtain ⟨y, hy, -, rfl⟩ := changeContext_ok hcleared.contextKeys hv
            obtain ⟨hq₁, hne⟩ | rfl := (hcleared.mem_modifyContext_iff hy u rfl).mp hq₁
            · obtain ⟨q₂, hq₂, hkey₂, hdevices₂⟩ := holds_writeDeviceMappings hu q₁ hq₁
              exact ⟨hne, q₂, hq₂, hkey₂, hdevices₂ ▸ hid⟩
            · exact absurd hid (hcleared.context_nodup hy).not_mem_erase
    · obtain rfl := Except.ok.inj ht
      refine ⟨h, rfl, fun q hq hid => ⟨fun hkey => hheld ?_, q, hq, rfl, hid⟩⟩
      rw [h.context_eq hq hx hkey] at hid
      exact hid

theorem Sound.loseFromAll (h : Sound s) {id : Device} {contexts : List Token}
    (ht : contexts.foldlM (Hid.loseFrom id) s = .ok t) :
    Sound t ∧ ∀ q ∈ t.contexts, id ∈ q.2.devices →
      q.1 ∉ contexts ∧ ∃ q' ∈ s.contexts, q'.1 = q.1 ∧ id ∈ q'.2.devices := by
  induction contexts generalizing s with
  | nil =>
    cases ht
    exact ⟨h, fun q hq hid => ⟨List.not_mem_nil, q, hq, rfl, hid⟩⟩
  | cons context contexts ih =>
    obtain ⟨u, hu, hrest⟩ := foldlM_cons_ok ht
    obtain ⟨hsound, -, hround⟩ := h.loseFrom hu
    obtain ⟨hsound', hrounds⟩ := ih hsound hrest
    refine ⟨hsound', fun q hq hid => ?_⟩
    obtain ⟨hnot, q₁, hq₁, hkey₁, hid₁⟩ := hrounds q hq hid
    obtain ⟨hne, q₂, hq₂, hkey₂, hid₂⟩ := hround q₁ hq₁ hid₁
    rw [hkey₁] at hne hkey₂
    exact ⟨fun hmem => (List.mem_cons.mp hmem).elim hne hnot, q₂, hq₂, hkey₂, hid₂⟩

theorem Sound.deviceLost (h : Sound s) {id : Device} (ht : deviceLost s id = .ok t) : Sound t := by
  rw [Hid.deviceLost] at ht
  split_ifs at ht
  split at ht
  · cases ht
  next u hu =>
    obtain rfl := Except.ok.inj ht
    obtain ⟨hsound, hrounds⟩ := h.loseFromAll hu
    have hnone : ∀ q ∈ u.contexts, id ∉ q.2.devices := fun q hq hid => by
      obtain ⟨hnot, q', hq', hkey, -⟩ := hrounds q hq hid
      exact hnot (hkey ▸ List.mem_map_of_mem hq')
    have hmem : ∀ p, p ∈ u.devices.eraseP (fun p => p.1 = id) ↔ p ∈ u.devices ∧ p.1 ≠ id :=
      fun p => by rw [eraseP_eq_filter hsound.deviceKeys, List.mem_filter, decide_eq_true_iff]
    refine hsound.of_same (hsound.deviceKeys.sublist (List.eraseP_sublist.map _))
      hsound.contextKeys hsound.nodup (fun q hq d hd => ?_) (fun p hp => .inl ((hmem p).mp hp).1)
      (fun q hq hset => ⟨q, hq, hset, rfl, fun d c e he => he⟩)
      (fun q hq hset => ⟨q, hq, hset, fun d c e he => he⟩)
    obtain ⟨p, hp, rfl⟩ := List.mem_map.mp (hsound.known q hq d hd)
    exact List.mem_map_of_mem ((hmem p).mpr ⟨hp, fun heq => hnone q hq (heq ▸ hd)⟩)

theorem Sound.addDevice (h : Sound s) {id : Device} (hnew : id ∉ s.devices.map Prod.fst) :
    Sound { s with devices := s.devices ++ [(id, fun _ => ⟨0, none⟩)] } := by
  refine h.of_same ?_ h.contextKeys h.nodup (fun q hq d hd => ?_) (fun p hp => ?_)
    (fun q hq hset => ⟨q, hq, hset, rfl, fun d c e he => he⟩)
    (fun q hq hset => ⟨q, hq, hset, fun d c e he => he⟩)
  · rw [List.map_append, List.map_singleton, ← List.concat_eq_append]
    exact h.deviceKeys.concat hnew
  · rw [List.map_append]
    exact List.mem_append_left _ (h.known q hq d hd)
  · obtain hp | hp := List.mem_append.mp hp
    · exact .inl hp
    · obtain rfl := List.mem_singleton.mp hp
      exact .inr ⟨fun _ => rfl, fun q hq hid => hnew (h.known q hq id hid)⟩

theorem Sound.deviceFound (h : Sound s) {id : Device} (ht : deviceFound s id = .ok t) :
    Sound t := by
  rw [Hid.deviceFound] at ht
  split_ifs at ht with hknown
  have hadded := h.addDevice hknown
  dsimp only at ht
  split_ifs at ht
  · exact Except.ok.inj ht ▸ hadded
  · split at ht
    · cases ht
    next u hu =>
      split at ht
      · cases ht
      next v hv => exact ((hadded.clear hu).contextAddDevice hv).set ht

theorem Sound.step (h : Sound s) {a : Action} (hmeets : Meets s a) (ht : step s a = .ok t) :
    Sound t := by
  cases a with
  | addAxisMove | addAxisTilt | addButtonPress | addButtonRelease => exact h.addFilter hmeets ht
  | addContext => exact h.addContext ht
  | addDevice =>
    obtain ⟨u, hu, hchange, -⟩ := h.clearThen ht
    exact hu.contextAddDevice hchange
  | bind | unbind =>
    obtain ⟨u, hu, hchange, -⟩ := h.clearThen ht
    exact hu.changeBindings hchange
  | removeContext =>
    obtain ⟨u, hu, hchange, hunset⟩ := h.clearThen ht
    exact hu.removeContext (hunset fun _ => rfl) hchange
  | removeDevice =>
    obtain ⟨u, hu, hchange, -⟩ := h.clearThen ht
    exact hu.contextRemoveDevice hchange
  | setState =>
    obtain ⟨u, hu, hchange, -⟩ := h.clearThen ht
    exact hu.setActive hchange
  | setAll => exact (h.setAll ht).1
  | deviceFound => exact h.deviceFound ht
  | deviceLost => exact h.deviceLost ht

/-- A context whose active state has a mapping of one button, and a device. -/
def oneDevice : List Action :=
  [.addContext 7 [8], .addButtonPress 9 ⟨2, by decide⟩ 5, .bind 7 8 9 100 200, .setAll, .deviceFound 1]

/-- A run and the end of the next message phase. -/
def runThenSet (actions : List Action) : Except Misuse State :=
  match runAll step State.initial actions with
  | .error e => .error e
  | .ok s => step s .setAll

theorem runThenSet_ok {actions : List Action} (h : (runThenSet actions).toOption.isSome) :
    ∃ s t, runAll step State.initial actions = .ok s ∧ step s .setAll = .ok t ∧
      runThenSet actions = .ok t := by
  simp only [runThenSet] at h ⊢
  cases hrun : runAll step State.initial actions with
  | error e =>
    rw [hrun] at h
    cases h
  | ok s =>
    rw [hrun] at h
    dsimp only at h ⊢
    cases hset : step s .setAll with
    | error e =>
      rw [hset] at h
      cases h
    | ok t => exact ⟨s, t, rfl, hset, rfl⟩

theorem meetsAll_oneDevice : MeetsAll step Meets State.initial oneDevice := by
  refine (meetsAll_cons_ok rfl).mpr ⟨trivial, fun q hq hset => ?_, fun _ _ => ?_⟩
  · obtain rfl := List.mem_singleton.mp hq
    exact absurd hset Bool.false_ne_true
  · exact ⟨trivial, fun _ _ => ⟨trivial, fun _ _ => ⟨trivial, fun _ _ => trivial⟩⟩⟩

/-- Another button is added to the mapping of the device. -/
def addedWhileApplied : List Action := oneDevice ++ [.addButtonPress 9 ⟨3, by decide⟩ 6]

/-- What a state says about the button that is added. -/
def addedLater (s : State) : List (Device × Entry) × List (Token × Context) × Option Filter :=
  (s.devices.map fun p => (p.1, p.2 (.button ⟨3, by decide⟩)), s.contexts,
    (s.findMapping 9).map fun mapping => mapping (.button ⟨3, by decide⟩))

end Fimbulwinter.Hid
