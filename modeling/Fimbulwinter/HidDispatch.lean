import Fimbulwinter.HidFilters

/-! # Input for devices

What `update` in `engine/hid/ui.cpp` calls for an input. Values are kept as the integers that
they are converted from. -/
namespace Fimbulwinter.Hid
open KeyedList

/-- A float that an integer is converted to, itself or divided by the largest `int32_t`. -/
inductive Value
  | whole (n : ℤ)
  | ratio (n : ℤ)
  deriving DecidableEq, Repr

/-- A call of a callback. -/
structure Call where
  callback : Callback
  command : Command
  value : Value
  data : Data
  deriving DecidableEq, Repr

inductive Input
  | axisTilt (code : Fin axisCount) (tilt : ℤ)
  | buttonDown (code : Fin buttonCount)
  | buttonUp (code : Fin buttonCount)
  | cursorMove (x y : ℤ)
  deriving DecidableEq, Repr

/-- The control whose filter is looked up. -/
def Input.control : Input → Control
  | .axisTilt code _ => .axis code
  | .buttonDown code | .buttonUp code => .button code
  | .cursorMove _ _ => .mouseMove

attribute [local instance] neZero_four

/-- `HandleAxisMove` -/
def handleAxisMove (x y : ℤ) (target : Callback × Data) :
    (Σ kind, FilterKind kind) → Except Misuse (List Call)
  | ⟨0, filter⟩ =>
    let filter : AxisMove := filter
    .ok [⟨target.1, filter.commandX, .whole x, target.2⟩, ⟨target.1, filter.commandY, .whole y, target.2⟩]
  | _ => .error .unreachable

/-- `HandleAxisTilt`. The tilt is an `int`, and so is its negation. -/
def handleAxisTilt (tilt : ℤ) (target : Callback × Data) :
    (Σ kind, FilterKind kind) → Except Misuse (List Call)
  | ⟨1, filter⟩ =>
    let filter : AxisTilt := filter
    if tilt = -2 ^ 31 then .error .overflow
    else .ok [⟨target.1, filter.commandMin, .ratio (-min tilt 0), target.2⟩,
      ⟨target.1, filter.commandMax, .ratio (max tilt 0), target.2⟩]
  | _ => .error .unreachable

/-- `HandleButton` -/
def handleButton (reversed : Bool) (target : Callback × Data) :
    (Σ kind, FilterKind kind) → Except Misuse (List Call)
  | ⟨2, filter⟩ =>
    let filter : ButtonPress := filter
    .ok [⟨target.1, filter.command, .whole (if reversed then 0 else 1), target.2⟩]
  | ⟨3, filter⟩ =>
    let filter : ButtonRelease := filter
    .ok [⟨target.1, filter.command, .whole (if reversed then 1 else 0), target.2⟩]
  | _ => .error .unreachable

def Input.handle : Input → Callback × Data → (Σ kind, FilterKind kind) → Except Misuse (List Call)
  | .axisTilt _ tilt => handleAxisTilt tilt
  | .buttonDown _ => handleButton false
  | .buttonUp _ => handleButton true
  | .cursorMove x y => handleAxisMove x y

/-- The handler of `engine::hid::Input`, with the calls that it makes. -/
def handleInput (s : State) (device : Device) (input : Input) : Except Misuse (List Call) :=
  match s.devices.find? fun p => p.1 = device with
  | none => .error .endDereferenced
  | some (_, m) =>
    let bucket := s.filters.find id (m input.control).filter
    if bucket = noBucket then .ok []
    else
      match s.filters.call bucket, (m input.control).target with
      | none, _ => .error .outOfRange
      | _, none => .error .indeterminate
      | some (_, filter), some target => input.handle target filter

/-! ## What is called -/

/-- The kind of a filter fits the kind of the input. -/
def Input.FitsKind : Input → Fin 4 → Prop
  | .axisTilt _ _, kind => kind = 1
  | .buttonDown _, kind | .buttonUp _, kind => kind = 2 ∨ kind = 3
  | .cursorMove _ _, kind => kind = 0

/-- The calls that a kind of filter defines for an input. -/
def Input.calls (input : Input) (target : Callback × Data) :
    (Σ kind, FilterKind kind) → List Call
  | ⟨0, filter⟩ =>
    let filter : AxisMove := filter
    match input with
    | .cursorMove x y => [⟨target.1, filter.commandX, .whole x, target.2⟩,
        ⟨target.1, filter.commandY, .whole y, target.2⟩]
    | _ => []
  | ⟨1, filter⟩ =>
    let filter : AxisTilt := filter
    match input with
    | .axisTilt _ tilt => [⟨target.1, filter.commandMin, .ratio (if tilt < 0 then -tilt else 0), target.2⟩,
        ⟨target.1, filter.commandMax, .ratio (if 0 < tilt then tilt else 0), target.2⟩]
    | _ => []
  | ⟨2, filter⟩ =>
    let filter : ButtonPress := filter
    match input with
    | .buttonDown _ => [⟨target.1, filter.command, .whole 1, target.2⟩]
    | .buttonUp _ => [⟨target.1, filter.command, .whole 0, target.2⟩]
    | _ => []
  | ⟨3, filter⟩ =>
    let filter : ButtonRelease := filter
    match input with
    | .buttonDown _ => [⟨target.1, filter.command, .whole 0, target.2⟩]
    | .buttonUp _ => [⟨target.1, filter.command, .whole 1, target.2⟩]
    | _ => []

/-- What has been added under a filter. -/
def State.component (s : State) (filter : Filter) : Option (Σ kind, FilterKind kind) :=
  if filter = 0 then none else s.added[filter - 1]?

/-- A filter of the device is called with its target, and nothing without a filter. -/
def Dispatches (s : State) (device : Device) (input : Input) (entry : Entry) : Prop :=
  if entry.filter = 0 then handleInput s device input = .ok []
  else ∃ filter target, s.component entry.filter = some filter ∧ entry.target = some target ∧
    handleInput s device input = .ok (input.calls target filter)

/-- Every bucket that is tried for the key 0 is taken. -/
def Occupied (s : State) : Prop :=
  ∀ b ∈ probes s.filters.lookup.size (hashOf id 0 s.filters.lookup.size),
    s.filters.lookup.keys b ≠ 0

/-- The condition: without a filter no tried bucket is empty, and with one the tilt can be
negated. -/
def Dispatchable (s : State) (input : Input) (entry : Entry) : Prop :=
  if entry.filter = 0 then Occupied s else ∀ code, input ≠ .axisTilt code (-2 ^ 31)

/-- A filter that is added finds room. -/
def FindsRoom (s : State) (kind : Fin 4) : Prop :=
  (s.filters.arrays kind).length < 2 ^ 24 ∧
    s.filters.lookup.HasRoom id .heap s.nextAvailableFilter

def Fits (s : State) : Action → Prop
  | .addAxisMove _ _ _ _ => FindsRoom s 0
  | .addAxisTilt _ _ _ _ => FindsRoom s 1
  | .addButtonPress _ _ _ => FindsRoom s 2
  | .addButtonRelease _ _ _ => FindsRoom s 3
  | _ => True

/-! ## Filters that are stored -/

/-- An entry that is empty, or of a filter that has been added. -/
def Entry.Within (n : ℕ) (e : Entry) : Prop :=
  e.filter ≤ n ∧ (e.filter ≠ 0 → e.target.isSome)

/-- The collection holds the filters that have been added, and entries are of those. -/
structure Stored (s : State) : Prop where
  table : ∃ t : DenseTable Filter (Collection.Component FilterKind), s.filters.Refines id t ∧
    ∀ filter, t.find filter = s.component filter
  next : s.nextAvailableFilter = s.added.length + 1
  mappings : ∀ p ∈ s.mappings, ∀ c, p.2 c ≤ s.added.length
  devices : ∀ p ∈ s.devices, ∀ c, (p.2 c).Within s.added.length
  keys : (s.devices.map Prod.fst).Nodup

theorem stored_initial : Stored State.initial where
  table := ⟨∅, Collection.refines_empty (by decide) (by decide), fun filter => by
    simp [State.component, State.initial]⟩
  next := rfl
  mappings := nofun
  devices := nofun
  keys := .nil

variable {s t : State}

/-- Only contexts change. -/
theorem Stored.of_eq (h : Stored s) (hfilters : t.filters = s.filters) (hadded : t.added = s.added)
    (hnext : t.nextAvailableFilter = s.nextAvailableFilter) (hmappings : t.mappings = s.mappings)
    (hdevices : ∀ p ∈ t.devices, ∀ c, (p.2 c).Within s.added.length)
    (hkeys : (t.devices.map Prod.fst).Nodup) : Stored t where
  table := by
    obtain ⟨table, hrefines, hfind⟩ := h.table
    refine ⟨table, hfilters ▸ hrefines, fun filter => ?_⟩
    rw [hfind, State.component, State.component, hadded]
  next := by rw [hnext, hadded, h.next]
  mappings := by
    rw [hmappings, hadded]
    exact h.mappings
  devices := by
    rw [hadded]
    exact hdevices
  keys := hkeys

theorem Input.handle_ne_nil (input : Input) (target : Callback × Data)
    (filter : Σ kind, FilterKind kind) : input.handle target filter ≠ .ok [] := by
  obtain ⟨kind, x⟩ := filter
  cases input with
  | axisTilt code tilt =>
    match kind with
    | 0 | 2 | 3 => simp [Input.handle, handleAxisTilt]
    | 1 =>
      simp only [Input.handle, handleAxisTilt]
      split <;> simp
  | buttonDown code | buttonUp code =>
    match kind with
    | 0 | 1 | 2 | 3 => simp [Input.handle, handleButton]
  | cursorMove a b =>
    match kind with
    | 0 | 1 | 2 | 3 => simp [Input.handle, handleAxisMove]

/-- A handler makes the calls that its kind of filter defines, when the tilt can be negated. -/
theorem Input.handle_eq_calls_iff (input : Input) (target : Callback × Data)
    (filter : Σ kind, FilterKind kind) (hkind : input.FitsKind filter.1) :
    input.handle target filter = .ok (input.calls target filter) ↔
      ∀ code, input ≠ .axisTilt code (-2 ^ 31) := by
  obtain ⟨kind, x⟩ := filter
  cases input with
  | axisTilt code tilt =>
    obtain rfl : kind = 1 := hkind
    simp only [Input.handle, handleAxisTilt, Input.calls]
    have hmin : -min tilt 0 = if tilt < 0 then -tilt else 0 := by
      split <;> omega
    have hmax : max tilt 0 = if 0 < tilt then tilt else 0 := by
      split <;> omega
    rw [hmin, hmax]
    split_ifs <;> simp_all
  | buttonDown code | buttonUp code =>
    refine iff_of_true ?_ (by simp)
    obtain rfl | rfl : kind = 2 ∨ kind = 3 := hkind <;> rfl
  | cursorMove a b =>
    obtain rfl : kind = 0 := hkind
    exact iff_of_true rfl (by simp)

/-- The key 0 is not found exactly when no bucket that is tried for it is empty. -/
theorem find_zero_eq_noBucket_iff (hvalid : s.filters.lookup.Valid id) :
    s.filters.find id 0 = noBucket ↔ Occupied s := by
  have hpos := hvalid.size_pos
  have hle := hvalid.size_le
  rw [Collection.find, LookupTable.find, if_neg (Nat.pos_iff_ne_zero.mp hpos), findBucket]
  cases hfind : (probes s.filters.lookup.size (hashOf id 0 s.filters.lookup.size)).find?
      (fun bucket => s.filters.lookup.keys bucket = 0) with
  | none =>
    refine iff_of_true rfl fun b hb => ?_
    simpa using List.find?_eq_none.mp hfind b hb
  | some b =>
    have hmem := List.mem_of_find?_eq_some hfind
    have hkey : s.filters.lookup.keys b = 0 := by simpa using List.find?_some hfind
    refine iff_of_false ?_ fun hoccupied => hoccupied b hmem hkey
    -- The buckets that are tried for 0 are small.
    have hsmall : b ≤ 16 := by
      have hzero : hashOf id 0 s.filters.lookup.size = 0 := by simp [hashOf]
      rw [hzero] at hmem
      obtain rfl | hmem := List.mem_cons.mp hmem
      · exact Nat.zero_le _
      · obtain ⟨count, hcount, rfl⟩ := List.mem_map.mp hmem
        have hcount : count ≤ 4 := by
          simp only [List.mem_cons, List.not_mem_nil, or_false] at hcount
          omega
        rw [Nat.zero_add]
        exact (Nat.mod_le _ _).trans (Nat.mul_le_mul hcount hcount)
    change toBucket b ≠ noBucket
    rw [toBucket, Nat.mod_eq_of_lt (by omega)]
    exact Nat.ne_of_lt (Nat.lt_of_le_of_lt hsmall (by decide))

theorem Stored.dispatches_iff_dispatchable (h : Stored s) {device : Device} {m : DeviceMapping}
    (hdevice : (device, m) ∈ s.devices) (input : Input)
    (hkind : ∀ filter, s.component (m input.control).filter = some filter →
      input.FitsKind filter.1) :
    Dispatches s device input (m input.control) ↔ Dispatchable s input (m input.control) := by
  have hfind : s.devices.find? (fun p => p.1 = device) = some (device, m) :=
    (find?_eq_some_iff h.keys).mpr ⟨hdevice, rfl⟩
  obtain ⟨table, hrefines, hcomponents⟩ := h.table
  rw [Dispatches, Dispatchable]
  split_ifs with hzero
  · rw [← find_zero_eq_noBucket_iff hrefines.valid, handleInput, hfind]
    simp only [hzero]
    split_ifs with hbucket
    · exact iff_of_true rfl hbucket
    · refine iff_of_false ?_ hbucket
      split
      · simp
      · simp
      next target _ _ => exact input.handle_ne_nil _ _
  · obtain ⟨hle, htarget⟩ := h.devices _ hdevice input.control
    have hadded : (m input.control).filter - 1 < s.added.length :=
      Nat.lt_of_lt_of_le (Nat.sub_lt (Nat.pos_of_ne_zero hzero) Nat.one_pos) hle
    have hcomponent : s.component (m input.control).filter =
        some s.added[(m input.control).filter - 1] := by
      rw [State.component, if_neg hzero, List.getElem?_eq_getElem hadded]
    obtain ⟨target, htarget⟩ : ∃ target, (m input.control).target = some target :=
      Option.isSome_iff_exists.mp (htarget hzero)
    have hlive := (hcomponents _).trans hcomponent
    have hhandle : handleInput s device input =
        input.handle target s.added[(m input.control).filter - 1] := by
      rw [handleInput, hfind]
      simp only [(hrefines.find_some hlive).1, if_false, hrefines.call_find hlive, htarget]
    rw [← input.handle_eq_calls_iff target _ (hkind _ hcomponent), hhandle]
    constructor
    · rintro ⟨filter, target', hfilter, htarget', hcalls⟩
      obtain rfl := Option.some.inj (hcomponent.symm.trans hfilter)
      obtain rfl := Option.some.inj (htarget.symm.trans htarget')
      exact hcalls
    · exact fun hcalls => ⟨_, target, hcomponent, htarget, hcalls⟩

/-! ## Filters stay stored -/

theorem Entry.Within.mono {n n' : ℕ} {e : Entry} (h : e.Within n) (hle : n ≤ n') : e.Within n' :=
  ⟨h.1.trans hle, h.2⟩

/-- A write of a mapping whose filters have been added keeps entries within those. -/
def KeepsWithin (n : ℕ) (write : Binding → Mapping → DeviceMapping → Except Misuse DeviceMapping) :
    Prop :=
  ∀ b mapping m m', (∀ c, mapping c ≤ n) → (∀ c, (m c).Within n) → write b mapping m = .ok m' →
    ∀ c, (m' c).Within n

theorem keepsWithin_setMapping (n : ℕ) : KeepsWithin n setMapping := by
  intro b mapping m m' hmapping hm hwrite c
  simp only [setMapping] at hwrite
  split_ifs at hwrite
  obtain rfl := Except.ok.inj hwrite
  dsimp only
  split_ifs
  · exact ⟨hmapping c, fun _ => rfl⟩
  · exact hm c

theorem keepsWithin_clearMapping (n : ℕ) : KeepsWithin n clearMapping := by
  intro b mapping m m' hmapping hm hwrite c
  simp only [clearMapping] at hwrite
  split_ifs at hwrite
  obtain rfl := Except.ok.inj hwrite
  dsimp only
  split_ifs
  · exact ⟨Nat.zero_le n, fun hne => absurd rfl hne⟩
  · exact hm c

theorem Stored.findMapping (h : Stored s) {token : Token} {mapping : Mapping}
    (hfind : s.findMapping token = some mapping) (c : Control) : mapping c ≤ s.added.length := by
  obtain ⟨p, hp, rfl⟩ := Option.map_eq_some_iff.mp hfind
  exact h.mappings p (List.mem_of_find?_eq_some hp) c

theorem Stored.writeBindings (h : Stored s)
    {write : Binding → Mapping → DeviceMapping → Except Misuse DeviceMapping}
    (hwrite : KeepsWithin s.added.length write) {bs : List Binding} {m m' : DeviceMapping}
    (hm : ∀ c, (m c).Within s.added.length) (hm' : writeBindings s write bs m = .ok m') :
    ∀ c, (m' c).Within s.added.length := by
  induction bs generalizing m with
  | nil =>
    cases hm'
    exact hm
  | cons b bs ih =>
    obtain ⟨mapping, m₁, hfind, hone, hrest⟩ := writeBindings_cons hm'
    exact ih (hwrite b mapping m m₁ (h.findMapping hfind) hm hone) hrest

theorem Stored.writeDevices (h : Stored s)
    {write : Binding → Mapping → DeviceMapping → Except Misuse DeviceMapping}
    (hwrite : KeepsWithin s.added.length write) {bs : List Binding} {ds : List Device}
    {devices devices' : List (Device × DeviceMapping)} (hkeys : (devices.map Prod.fst).Nodup)
    (hdevices : ∀ p ∈ devices, ∀ c, (p.2 c).Within s.added.length)
    (hw : writeDevices s write bs ds devices = .ok devices') :
    (devices'.map Prod.fst).Nodup ∧ ∀ p ∈ devices', ∀ c, (p.2 c).Within s.added.length := by
  induction ds generalizing devices with
  | nil =>
    cases hw
    exact ⟨hkeys, hdevices⟩
  | cons d ds ih =>
    rw [Hid.writeDevices] at hw
    split at hw
    · cases hw
    next d' m hfind =>
      split at hw
      · cases hw
      next m₁ hm₁ =>
        have hm := h.writeBindings hwrite (hdevices _ (List.mem_of_find?_eq_some hfind)) hm₁
        have hsame : (modifyFirst (fun p => p.1 = d) (fun p => (p.1, m₁)) devices).map Prod.fst =
            devices.map Prod.fst := map_key_modifyFirst fun _ => rfl
        refine ih (hsame ▸ hkeys) (fun p hp => ?_) hw
        obtain hp | ⟨p, -, rfl⟩ := exists_of_mem_modifyFirst hp
        · exact hdevices p hp
        · exact hm

theorem Stored.writeDeviceMappings (h : Stored s)
    {write : Binding → Mapping → DeviceMapping → Except Misuse DeviceMapping} {flag : Bool}
    {context : Token} (hwrite : ∀ n, KeepsWithin n write)
    (ht : writeDeviceMappings write flag s context = .ok t) : Stored t := by
  obtain ⟨x, devices, -, -, hdevices, rfl⟩ := writeDeviceMappings_ok ht
  obtain ⟨hkeys, hwithin⟩ := h.writeDevices (hwrite _) h.keys h.devices hdevices
  exact h.of_eq rfl rfl rfl rfl hwithin hkeys

theorem Stored.set (h : Stored s) {context : Token} (ht : setDeviceMappings s context = .ok t) :
    Stored t :=
  h.writeDeviceMappings keepsWithin_setMapping ht

theorem Stored.clear (h : Stored s) {context : Token} (ht : clearDeviceMappings s context = .ok t) :
    Stored t :=
  h.writeDeviceMappings keepsWithin_clearMapping ht

theorem Stored.changeContext (h : Stored s) {context : Token} {check : Context → Bool}
    {f : Context → Context} (ht : changeContext context check f s = .ok t) : Stored t := by
  rw [Hid.changeContext] at ht
  split at ht
  · cases ht
  · split_ifs at ht
    obtain rfl := Except.ok.inj ht
    exact h.of_eq rfl rfl rfl rfl h.devices h.keys

theorem Stored.clearThen (h : Stored s) {context : Token} {condition : Context → Bool}
    {change : State → Except Misuse State} (ht : clearThen s context condition change = .ok t) :
    ∃ u, Stored u ∧ change u = .ok t := by
  rw [Hid.clearThen] at ht
  split at ht
  · cases ht
  · split_ifs at ht
    · split at ht
      · cases ht
      next u hu => exact ⟨u, h.clear hu, ht⟩
    · exact ⟨s, h, ht⟩

theorem Stored.foldlM (h : Stored s) {f : State → Token → Except Misuse State}
    (hf : ∀ {s t : State} {context : Token}, Stored s → f s context = .ok t → Stored t)
    {contexts : List Token} (ht : contexts.foldlM f s = .ok t) : Stored t := by
  induction contexts generalizing s with
  | nil =>
    cases ht
    exact h
  | cons context contexts ih =>
    obtain ⟨u, hu, hrest⟩ := foldlM_cons_ok ht
    exact ih (hf h hu) hrest

theorem Stored.setUnset (h : Stored s) {context : Token} (ht : setUnset s context = .ok t) :
    Stored t := by
  rw [Hid.setUnset] at ht
  split at ht
  · cases ht
  · split_ifs at ht
    · exact Except.ok.inj ht ▸ h
    · exact h.set ht

theorem Stored.loseFrom (h : Stored s) {id : Device} {context : Token}
    (ht : loseFrom id s context = .ok t) : Stored t := by
  rw [Hid.loseFrom] at ht
  split at ht
  · cases ht
  · split_ifs at ht
    · split at ht
      · cases ht
      next u hu =>
        split at ht
        · cases ht
        next v hv => exact ((h.clear hu).changeContext hv).set ht
    · exact Except.ok.inj ht ▸ h

theorem Stored.deviceLost (h : Stored s) {id : Device} (ht : deviceLost s id = .ok t) :
    Stored t := by
  rw [Hid.deviceLost] at ht
  split_ifs at ht
  split at ht
  · cases ht
  next u hu =>
    obtain rfl := Except.ok.inj ht
    have hstored : Stored u := h.foldlM (fun hs => hs.loseFrom) hu
    exact hstored.of_eq rfl rfl rfl rfl (fun p hp => hstored.devices p (List.mem_of_mem_eraseP hp))
      (hstored.keys.sublist (List.eraseP_sublist.map _))

theorem Stored.deviceFound (h : Stored s) {id : Device} (ht : deviceFound s id = .ok t) :
    Stored t := by
  rw [Hid.deviceFound] at ht
  split_ifs at ht with hknown
  have hadded : Stored { s with devices := s.devices ++ [(id, fun _ => ⟨0, none⟩)] } := by
    refine h.of_eq rfl rfl rfl rfl (fun p hp c => ?_) ?_
    · obtain hp | hp := List.mem_append.mp hp
      · exact h.devices p hp c
      · obtain rfl := List.mem_singleton.mp hp
        exact ⟨Nat.zero_le _, fun hne => absurd rfl hne⟩
    · rw [List.map_append, List.map_singleton, ← List.concat_eq_append]
      exact h.keys.concat hknown
  dsimp only at ht
  split_ifs at ht
  · exact Except.ok.inj ht ▸ hadded
  · split at ht
    · cases ht
    next u hu =>
      split at ht
      · cases ht
      next v hv => exact ((hadded.clear hu).changeContext hv).set ht

theorem Stored.addContext (h : Stored s) {context : Token} {states : List Token}
    (ht : addContext s context states = .ok t) : Stored t := by
  simp only [Hid.addContext] at ht
  split_ifs at ht
  · obtain rfl := Except.ok.inj ht
    exact h.of_eq rfl rfl rfl rfl h.devices h.keys
  · obtain rfl := Except.ok.inj ht
    exact h.of_eq rfl rfl rfl rfl h.devices h.keys

theorem Stored.removeContext (h : Stored s) {context : Token}
    (ht : removeContext context s = .ok t) : Stored t := by
  simp only [Hid.removeContext] at ht
  split_ifs at ht
  · obtain rfl := Except.ok.inj ht
    exact h.of_eq rfl rfl rfl rfl h.devices h.keys
  · obtain rfl := Except.ok.inj ht
    exact h.of_eq rfl rfl rfl rfl h.devices h.keys

theorem component_append (s : State) (x : Σ kind, FilterKind kind) (filter : Filter) :
    State.component { s with added := s.added ++ [x] } filter =
      if filter = s.added.length + 1 then some x else s.component filter := by
  rw [State.component, State.component]
  obtain _ | filter := filter
  · rw [if_pos rfl, if_pos rfl, if_neg (Nat.succ_ne_zero _).symm]
  · rw [if_neg (Nat.succ_ne_zero _), if_neg (Nat.succ_ne_zero _), Nat.add_sub_cancel]
    by_cases heq : filter = s.added.length
    · simp [heq]
    · rw [if_neg fun hsucc => heq (Nat.succ.inj hsucc)]
      by_cases hlt : filter < s.added.length
      · exact List.getElem?_append_left hlt
      · rw [List.getElem?_eq_none (by simp; omega), List.getElem?_eq_none (by omega)]

theorem Stored.addOrFindMapping (h : Stored s) (mapping : Token) :
    ∀ p ∈ (addOrFindMapping s mapping).mappings, ∀ c, p.2 c ≤ s.added.length := by
  rw [Hid.addOrFindMapping]
  split_ifs
  · exact h.mappings
  · intro p hp c
    obtain hp | hp := List.mem_append.mp hp
    · exact h.mappings p hp c
    · obtain rfl := List.mem_singleton.mp hp
      exact Nat.zero_le _

theorem Stored.addFilter (h : Stored s) {mapping : Token} {c : Control} {kind : Fin 4}
    {x : FilterKind kind} (hroom : FindsRoom s kind) (ht : addFilter s mapping c kind x = .ok t) :
    Stored t := by
  obtain ⟨hdevices, -, -⟩ := addOrFindMapping_fields s mapping
  have hmappings := h.addOrFindMapping mapping
  rw [Hid.addFilter] at ht
  split at ht
  · cases ht
  next filters done hemplace =>
    dsimp only at ht
    split_ifs at ht
    obtain rfl := Except.ok.inj ht
    obtain ⟨table, hrefines, hfind⟩ := h.table
    have hne : s.nextAvailableFilter ≠ 0 := by
      rw [h.next]
      exact Nat.succ_ne_zero _
    have hnone : table.find s.nextAvailableFilter = none := by
      rw [hfind, State.component, if_neg hne, h.next]
      exact List.getElem?_eq_none (Nat.le_of_eq (Nat.add_sub_cancel _ 1).symm)
    obtain rfl := hrefines.emplace_done hne hnone hroom.2 hemplace
    obtain ⟨table', htable', hrefines'⟩ := hrefines.emplace hne hroom.1 hroom.2 hemplace
    refine ⟨⟨table', hrefines', fun filter => ?_⟩, ?_, fun p hp c' => ?_, fun p hp c' => ?_, ?_⟩
    · rw [DenseTable.find_emplace htable', hfind, h.next]
      exact (component_append s ⟨kind, x⟩ filter).symm
    · rw [List.length_append, List.length_singleton, h.next]
    · rw [List.length_append, List.length_singleton]
      obtain hp | ⟨q, hq, rfl⟩ := exists_of_mem_modifyFirst hp
      · exact (hmappings p hp c').trans (Nat.le_succ _)
      · dsimp only
        rw [Function.update_apply]
        split_ifs
        · exact Nat.le_of_eq h.next
        · exact (hmappings q hq c').trans (Nat.le_succ _)
    · rw [List.length_append, List.length_singleton]
      exact (h.devices p (hdevices ▸ hp) c').mono (Nat.le_succ _)
    · exact hdevices ▸ h.keys

theorem Stored.step (h : Stored s) {a : Action} (hfits : Fits s a) (ht : step s a = .ok t) :
    Stored t := by
  cases a with
  | addAxisMove | addAxisTilt | addButtonPress | addButtonRelease => exact h.addFilter hfits ht
  | addContext => exact h.addContext ht
  | addDevice | bind | removeDevice | setState | unbind =>
    obtain ⟨u, hu, hchange⟩ := h.clearThen ht
    exact hu.changeContext hchange
  | removeContext =>
    obtain ⟨u, hu, hchange⟩ := h.clearThen ht
    exact hu.removeContext hchange
  | setAll => exact h.foldlM (fun hs => hs.setUnset) ht
  | deviceFound => exact h.deviceFound ht
  | deviceLost => exact h.deviceLost ht

theorem meetsAll_fits_oneDevice : MeetsAll step Fits State.initial oneDevice := by
  refine (meetsAll_cons_ok rfl).mpr ⟨trivial, ⟨by decide, .empty (by decide)⟩, fun _ _ => ?_⟩
  exact ⟨trivial, fun _ _ => ⟨trivial, fun _ _ => ⟨trivial, fun _ _ => trivial⟩⟩⟩

/-- What a state says about the button of `oneDevice`. -/
theorem two_lt_buttonCount : 2 < buttonCount := by decide

def pressed (s : State) : List (Device × Entry) × List (Fin 4) :=
  (s.devices.map fun p => (p.1, p.2 (.button ⟨2, two_lt_buttonCount⟩)), s.added.map Sigma.fst)

end Fimbulwinter.Hid
