import Fimbulwinter.LoaderFrames

/-! # Delayed messages of the file loader

While a scan is pending, `loader_update` keeps every message but its answer on
`delayed_messages`. It walks that list once the answer is there, and goes wrong
when the first registration on it has its own answer behind it. -/
namespace Fimbulwinter.Loader

variable {hash : Name → Asset}

/-- What has been handed over and what is waiting, against what has arrived. -/
structure Ordered (s : System) (waiting : List Task) : Prop where
  numbered : s.arrived.map Task.arrival = List.range s.arrived.length
  once : (s.handed.map Handed.task ++ waiting).Perm s.arrived
  sorted : waiting.Pairwise fun a b => a.arrival < b.arrival
  order : s.handed.Pairwise fun a b =>
    a.task.arrival < b.task.arrival ∨ answers a.scanning a.task.message
  ahead : ∀ a ∈ s.handed, ∀ t ∈ waiting,
    a.task.arrival < t.arrival ∨ answers a.scanning a.task.message
  gated : ∀ a ∈ s.handed, a.scanning = none ∨ answers a.scanning a.task.message

/-- Every message has been handed over once or waits once; messages are handed over in
order of arrival unless they answer the pending scan, and nothing else is handed over
while a scan is pending; the answer of the pending scan does not wait, and without a
pending scan nothing does. -/
structure InOrder (s : System) : Prop extends Ordered s s.delayedMessages where
  prompt : ∀ t ∈ s.delayedMessages, answers s.scanningDirectory t.message = false
  idle : s.scanningDirectory = none → s.delayedMessages = []

/-- The first registration in the list has its answer behind it. -/
def answeredRegistration : List Task → Bool
  | [] => false
  | task :: rest =>
    match task.message with
    | .registerLibrary directory => rest.any fun t => answers (some directory) t.message
    | _ => answeredRegistration rest

/-- The message that an action delivers. -/
def System.delivery (s : System) : Action → Option Message
  | .arrive index =>
    match s.works[index]? with
    | some (.loaderUpdate message _) => some message
    | _ => none
  | _ => none

/-- When the answer of the pending scan arrives, the first delayed registration does not
have its answer behind it. -/
def keepsDelayed (s : System) (action : Action) : Prop :=
  ∀ message ∈ s.delivery action, answers s.scanningDirectory message →
    answeredRegistration s.delayedMessages = false

instance (s : System) (action : Action) : Decidable (keepsDelayed s action) := by
  unfold keepsDelayed
  infer_instance

/-! ## Handing over one message -/

theorem handMessage_spec {s s' : System} {task : Task} (h : handMessage hash s task = .ok s') :
    s'.scanningDirectory = task.message.scanningAfter s.scanningDirectory ∧
      s'.delayedMessages = s.delayedMessages ∧ s'.arrived = s.arrived ∧
      s'.handed = s.handed ++ [⟨task, s.scanningDirectory⟩] := by
  unfold handMessage at h
  split at h
  · simp at h
  next t ht =>
    cases h
    exact ⟨(processMessage_scanning hash s.toState task.message).ok ht, rfl, rfl, rfl⟩

theorem handMessage_error {s : System} {task : Task} {e : Fault}
    (h : handMessage hash s task = .error e) : processMessage hash s.toState task.message = .error e := by
  unfold handMessage at h
  split at h
  next e' he =>
    cases h
    exact he
  · simp at h

/-- The next message in line is handed over, with no scan pending. -/
theorem Ordered.hand_next {s s' : System} {task : Task} {rest : List Task}
    (h : Ordered s (task :: rest)) (hidle : s.scanningDirectory = none)
    (hs : handMessage hash s task = .ok s') : Ordered s' rest := by
  obtain ⟨-, -, harrived, hhanded⟩ := handMessage_spec hs
  obtain ⟨hfirst, hsorted⟩ := List.pairwise_cons.mp h.sorted
  refine ⟨harrived ▸ h.numbered, ?_, hsorted, ?_, ?_, ?_⟩
  · rw [hhanded, harrived, List.map_append, List.map_singleton, List.append_assoc,
      List.singleton_append]
    exact h.once
  · rw [hhanded, List.pairwise_append]
    refine ⟨h.order, List.pairwise_singleton _ _, fun a ha b hb => ?_⟩
    rw [List.mem_singleton.mp hb]
    exact h.ahead a ha task List.mem_cons_self
  · intro a ha t ht
    rw [hhanded, List.mem_append, List.mem_singleton] at ha
    rcases ha with ha | rfl
    · exact h.ahead a ha t (List.mem_cons_of_mem _ ht)
    · exact .inl (hfirst t ht)
  · intro a ha
    rw [hhanded, List.mem_append, List.mem_singleton] at ha
    rcases ha with ha | rfl
    · exact h.gated a ha
    · exact .inl hidle

/-- A message that has just arrived is the last one. -/
theorem Ordered.arrive {s s' : System} {task : Task} {waiting : List Task}
    (h : Ordered s waiting) (hnumber : task.arrival = s.arrived.length)
    (harrived : s'.arrived = s.arrived ++ [task]) (hhanded : s'.handed = s.handed) :
    Ordered s' (waiting ++ [task]) := by
  have hlast : ∀ t ∈ s.arrived, t.arrival < task.arrival := fun t ht => by
    have hmem := List.mem_map_of_mem (f := Task.arrival) ht
    rw [h.numbered, List.mem_range] at hmem
    omega
  refine ⟨?_, ?_, ?_, hhanded ▸ h.order, ?_, hhanded ▸ h.gated⟩
  · rw [harrived, List.map_append, h.numbered, List.length_append, List.map_singleton, hnumber]
    exact List.range_succ.symm
  · rw [hhanded, harrived, ← List.append_assoc]
    exact h.once.append_right [task]
  · rw [List.pairwise_append]
    refine ⟨h.sorted, List.pairwise_singleton _ _, fun a ha b hb => ?_⟩
    rw [List.mem_singleton.mp hb]
    exact hlast a (h.once.mem_iff.mp (List.mem_append_right _ ha))
  · intro a ha t ht
    rw [hhanded] at ha
    rcases List.mem_append.mp ht with ht | ht
    · exact h.ahead a ha t ht
    · rw [List.mem_singleton.mp ht]
      exact .inl (hlast a.task (h.once.mem_iff.mp
        (List.mem_append_left _ (List.mem_map_of_mem (f := Handed.task) ha))))

/-- The answer of the pending scan is handed over as soon as it has arrived. -/
theorem Ordered.hand_answer {s s' : System} {task : Task} {waiting : List Task}
    (h : Ordered s (waiting ++ [task])) (hanswer : answers s.scanningDirectory task.message)
    (hs : handMessage hash s task = .ok s') : Ordered s' waiting := by
  obtain ⟨-, -, harrived, hhanded⟩ := handMessage_spec hs
  refine ⟨harrived ▸ h.numbered, ?_, (List.pairwise_append.mp h.sorted).1, ?_, ?_, ?_⟩
  · rw [hhanded, harrived, List.map_append, List.map_singleton, List.append_assoc]
    exact ((List.perm_append_comm).append_left _).trans h.once
  · rw [hhanded, List.pairwise_append]
    refine ⟨h.order, List.pairwise_singleton _ _, fun a ha b hb => ?_⟩
    rw [List.mem_singleton.mp hb]
    exact h.ahead a ha task (List.mem_append_right _ (List.mem_singleton.mpr rfl))
  · intro a ha t ht
    rw [hhanded, List.mem_append, List.mem_singleton] at ha
    rcases ha with ha | rfl
    · exact h.ahead a ha t (List.mem_append_left _ ht)
    · exact .inr hanswer
  · intro a ha
    rw [hhanded, List.mem_append, List.mem_singleton] at ha
    rcases ha with ha | rfl
    · exact h.gated a ha
    · exact .inr hanswer

/-! ## The loop -/

/-- Without an answered registration in front, the loop hands over a front part of the
list, up to and including its first registration. -/
theorem delayedLoop_inOrder {n : ℕ} {s s' : System} {waiting waiting' : List Task}
    (h : Ordered s waiting) (hidle : s.scanningDirectory = none)
    (hclear : answeredRegistration waiting = false)
    (hs : delayedLoop hash n s waiting 0 = .ok (s', waiting')) :
    InOrder { s' with delayedMessages := waiting' } := by
  induction n generalizing s waiting with
  | zero =>
    cases waiting with
    | nil =>
      cases hs
      exact ⟨⟨h.numbered, h.once, h.sorted, h.order, h.ahead, h.gated⟩, by simp, fun _ => rfl⟩
    | cons task rest => simp [delayedLoop] at hs
  | succ n ih =>
    cases waiting with
    | nil =>
      cases hs
      exact ⟨⟨h.numbered, h.once, h.sorted, h.order, h.ahead, h.gated⟩, by simp, fun _ => rfl⟩
    | cons task rest =>
      simp only [delayedLoop] at hs
      split at hs
      · simp at hs
      next u hu =>
        have hnext := h.hand_next hidle hu
        have hscanning := (handMessage_spec hu).1
        rw [hidle] at hscanning
        cases hmessage : task.message with
        | registerLibrary directory =>
          simp only [hmessage, Message.scanningAfter] at hscanning
          simp only [answeredRegistration, hmessage] at hclear
          have hnone : rest.find? (fun t => answers (some directory) t.message) = none :=
            List.find?_eq_none.mpr fun t ht => by simpa using List.any_eq_false.mp hclear t ht
          simp only [hmessage, Message.isRegisterLibrary, if_true, hscanning, hnone] at hs
          cases hs
          refine ⟨⟨hnext.numbered, hnext.once, hnext.sorted, hnext.order, hnext.ahead,
            hnext.gated⟩, fun t ht => ?_, fun hnot => ?_⟩
          · change answers s'.scanningDirectory t.message = false
            rw [hscanning]
            simpa using List.any_eq_false.mp hclear t ht
          · exact absurd (hscanning.symm.trans hnot) (Option.some_ne_none directory)
        | _ =>
          simp only [hmessage, Message.scanningAfter] at hscanning
          simp only [answeredRegistration, hmessage] at hclear
          simp only [hmessage, Message.isRegisterLibrary, Bool.false_eq_true, if_false] at hs
          exact ih hnext hscanning hclear hs

/-- The faults of the loop are those of `process_message`. -/
theorem delayedLoop_error {n : ℕ} {s : System} {waiting : List Task} {e : Fault}
    (hn : waiting.length ≤ n) (hidle : s.scanningDirectory = none)
    (hclear : answeredRegistration waiting = false)
    (hs : delayedLoop hash n s waiting 0 = .error e) :
    ∃ t message, processMessage hash t message = .error e := by
  induction n generalizing s waiting with
  | zero =>
    rw [List.length_eq_zero_iff.mp (Nat.le_zero.mp hn)] at hs
    simp [delayedLoop] at hs
  | succ n ih =>
    cases waiting with
    | nil => simp [delayedLoop] at hs
    | cons task rest =>
      simp only [delayedLoop] at hs
      split at hs
      next e' he =>
        cases hs
        exact ⟨_, _, handMessage_error he⟩
      next u hu =>
        have hscanning := (handMessage_spec hu).1
        rw [hidle] at hscanning
        have hlength : rest.length ≤ n := Nat.le_of_succ_le_succ hn
        cases hmessage : task.message with
        | registerLibrary directory =>
          simp only [hmessage, Message.scanningAfter] at hscanning
          simp only [answeredRegistration, hmessage] at hclear
          have hnone : rest.find? (fun t => answers (some directory) t.message) = none :=
            List.find?_eq_none.mpr fun t ht => by simpa using List.any_eq_false.mp hclear t ht
          simp [hmessage, Message.isRegisterLibrary, hscanning, hnone] at hs
        | _ =>
          simp only [hmessage, Message.scanningAfter] at hscanning
          simp only [answeredRegistration, hmessage] at hclear
          simp only [hmessage, Message.isRegisterLibrary, Bool.false_eq_true, if_false] at hs
          exact ih hlength hscanning hclear hs

/-- Once an answer has been erased in the loop, or is about to be, the loop does not end
without a fault. -/
theorem delayedLoop_faults {n : ℕ} {s : System} {waiting : List Task} {erased : ℕ}
    (h : 0 < erased ∨ answeredRegistration waiting) :
    ∃ e, delayedLoop hash n s waiting erased = .error e := by
  induction n generalizing s waiting erased with
  | zero =>
    cases waiting with
    | nil =>
      obtain ⟨m, rfl⟩ : ∃ m, erased = m + 1 :=
        Nat.exists_eq_add_one_of_ne_zero (by simp [answeredRegistration] at h; omega)
      exact ⟨_, rfl⟩
    | cons task rest => exact ⟨_, rfl⟩
  | succ n ih =>
    cases waiting with
    | nil =>
      obtain ⟨m, rfl⟩ : ∃ m, erased = m + 1 :=
        Nat.exists_eq_add_one_of_ne_zero (by simp [answeredRegistration] at h; omega)
      exact ⟨_, rfl⟩
    | cons task rest =>
      simp only [delayedLoop]
      split
      · exact ⟨_, rfl⟩
      next u hu =>
        have hscanning := (handMessage_spec hu).1
        cases hmessage : task.message with
        | registerLibrary directory =>
          simp only [hmessage, Message.scanningAfter] at hscanning
          simp only [answeredRegistration, hmessage] at h
          simp only [Message.isRegisterLibrary, if_true, hscanning]
          split
          next hnone =>
            have hnone' := List.find?_eq_none.mp hnone
            have herased : erased ≠ 0 := by
              rcases h with h | h
              · omega
              · obtain ⟨t, ht, hanswer⟩ := List.any_eq_true.mp h
                exact absurd hanswer (hnone' t ht)
            exact ⟨.erasedElement, by simp [herased]⟩
          · split
            · exact ⟨_, rfl⟩
            · exact ih (.inl (Nat.succ_pos erased))
        | _ =>
          simp only [answeredRegistration, hmessage] at h
          simp only [Message.isRegisterLibrary, Bool.false_eq_true, if_false]
          exact ih h

/-! ## Whole runs -/

/-- What `loader_update` does with a message keeps the order. -/
theorem loaderUpdate_inOrder {s s' : System} {message : Message} {sender : Option CallPtr}
    (h : InOrder s) (hkeeps : answers s.scanningDirectory message →
      answeredRegistration s.delayedMessages = false)
    (hs : loaderUpdate hash s message sender = .ok s') : InOrder s' := by
  simp only [loaderUpdate] at hs
  have harrive : Ordered { s with arrived := s.arrived ++ [⟨message, sender, s.arrived.length⟩] }
      (s.delayedMessages ++ [⟨message, sender, s.arrived.length⟩]) :=
    h.toOrdered.arrive rfl rfl rfl
  split_ifs at hs with hidle hanswer
  -- No scan is pending: nothing is delayed and the message is handed over.
  · have hempty := h.idle hidle
    rw [hempty] at harrive hs
    have hnext := harrive.hand_next hidle hs
    have hnil : s'.delayedMessages = [] := (handMessage_spec hs).2.1
    exact ⟨by rw [hnil]; exact hnext, by simp [hnil], fun _ => hnil⟩
  -- The answer of the pending scan: the loop runs over the delayed messages.
  · split at hs
    · simp at hs
    next u hu =>
      have hnext := harrive.hand_answer hanswer hu
      obtain ⟨hscanning, hdelayed, -, -⟩ := handMessage_spec hu
      have hnone : u.scanningDirectory = none := by
        rw [hscanning]
        cases message <;> first | rfl | simp [answers] at hanswer
      split at hs
      · simp at hs
      next v waiting hv =>
        cases hs
        rw [hdelayed] at hv
        exact delayedLoop_inOrder hnext hnone (hkeeps hanswer) hv
  -- Any other message waits.
  · cases hs
    refine ⟨h.toOrdered.arrive rfl rfl rfl, fun t ht => ?_, fun hnone => absurd hnone hidle⟩
    rcases List.mem_append.mp ht with ht | ht
    · exact h.prompt t ht
    · rw [List.mem_singleton.mp ht]
      simpa using hanswer

/-- A message that arrives with no answered registration waiting faults only where
`process_message` does. -/
theorem loaderUpdate_error {s : System} {message : Message} {sender : Option CallPtr} {e : Fault}
    (hkeeps : answers s.scanningDirectory message → answeredRegistration s.delayedMessages = false)
    (hs : loaderUpdate hash s message sender = .error e) :
    ∃ t message, processMessage hash t message = .error e := by
  simp only [loaderUpdate] at hs
  split_ifs at hs with hidle hanswer
  · exact ⟨_, _, handMessage_error hs⟩
  · split at hs
    next e' he =>
      cases hs
      exact ⟨_, _, handMessage_error he⟩
    next u hu =>
      obtain ⟨hscanning, hdelayed, -, -⟩ := handMessage_spec hu
      have hnone : u.scanningDirectory = none := by
        rw [hscanning]
        cases message <;> first | rfl | simp [answers] at hanswer
      split at hs
      next e' he =>
        cases hs
        refine delayedLoop_error (Nat.le_refl _) hnone ?_ he
        rw [hdelayed]
        exact hkeeps hanswer
      · simp at hs

/-- The loop reads an erased element unless `process_message` faults before. -/
theorem loaderUpdate_faults {s : System} {message : Message} {sender : Option CallPtr}
    (hanswer : answers s.scanningDirectory message)
    (hanswered : answeredRegistration s.delayedMessages) :
    ∃ e, loaderUpdate hash s message sender = .error e := by
  have hscan : s.scanningDirectory ≠ none := by
    intro hnone
    rw [hnone] at hanswer
    cases message <;> simp [answers] at hanswer
  simp only [loaderUpdate, hscan, if_false, hanswer, if_true]
  split
  · exact ⟨_, rfl⟩
  next u hu =>
    obtain ⟨-, hdelayed, -, -⟩ := handMessage_spec hu
    obtain ⟨e, he⟩ : ∃ e, delayedLoop hash u.delayedMessages.length u u.delayedMessages 0 = .error e :=
      delayedLoop_faults (.inr (by rw [hdelayed]; exact hanswered))
    exact ⟨e, by rw [he]⟩

theorem inOrder_of_toState {s s' : System} (h : InOrder s)
    (hscanning : s'.scanningDirectory = s.scanningDirectory)
    (hdelayed : s'.delayedMessages = s.delayedMessages) (harrived : s'.arrived = s.arrived)
    (hhanded : s'.handed = s.handed) : InOrder s' := by
  obtain ⟨⟨h1, h2, h3, h4, h5, h6⟩, h7, h8⟩ := h
  constructor
  · rw [hdelayed]
    constructor <;> (try rw [harrived]) <;> (try rw [hhanded]) <;> assumption
  · rw [hdelayed, hscanning]
    exact h7
  · rw [hdelayed, hscanning]
    exact h8

theorem updateStep_inOrder {s s' : System} {action : Action} (h : InOrder s)
    (hkeeps : keepsDelayed s action) (hs : updateStep hash s action = .ok s') : InOrder s' := by
  cases action with
  | post message =>
    cases hs
    exact inOrder_of_toState h rfl rfl rfl rfl
  | arrive index =>
    simp only [updateStep] at hs
    split at hs
    next message sender hwork =>
      refine loaderUpdate_inOrder (s := s.takeWork index) (inOrder_of_toState h rfl rfl rfl rfl) ?_ hs
      exact hkeeps message (by simp [System.delivery, hwork])
    · cases hs
      exact h
  | hand index =>
    cases hs
    exact h
  | run index requests =>
    simp only [updateStep, step] at hs
    split at hs
    · cases hs
      exact h
    · cases hs
      exact h
    · cases hs
      exact inOrder_of_toState h (runWork_scanning _ _ _) rfl rfl rfl
  | request =>
    simp only [updateStep, step] at hs
    split at hs
    · cases hs
      exact h
    · cases hs
      exact inOrder_of_toState h (processRequest_scanning _ _) rfl rfl rfl
  | change id =>
    simp only [updateStep, step] at hs
    split at hs
    · cases hs
      exact h
    · cases hs
      exact inOrder_of_toState h rfl rfl rfl rfl

theorem inOrder_initial : InOrder System.initial := by
  refine ⟨⟨rfl, .refl _, .nil, .nil, ?_, ?_⟩, ?_, fun _ => rfl⟩
  all_goals simp [System.initial]

/-- In runs that keep the delayed messages, messages are handed over once and in order, and
no erased element is read; a delivery that does not keep them never completes. -/
theorem delayedMessages_inOrder {s : System}
    (h : Reachable (updateStep hash) keepsDelayed s) :
    InOrder s ∧ ∀ action,
      (keepsDelayed s action → updateStep hash s action ≠ .error .erasedElement) ∧
      (¬ keepsDelayed s action → ∃ e, updateStep hash s action = .error e) := by
  refine ⟨?_, fun action => ⟨fun hkeeps hs => ?_, fun hkeeps => ?_⟩⟩
  · induction h with
    | initial => exact inOrder_initial
    | step _ meets taken ih => exact updateStep_inOrder ih meets taken
  · cases action with
    | arrive index =>
      simp only [updateStep] at hs
      split at hs
      next message sender hwork =>
        obtain ⟨t, m, hm⟩ := loaderUpdate_error (s := s.takeWork index)
          (hkeeps message (by simp [System.delivery, hwork])) hs
        exact (processMessage_scanning hash t m).ne_erasedElement hm
      · simp at hs
    | hand index => simp [updateStep] at hs
    | post message => simp [updateStep, step] at hs
    | run index requests =>
      simp only [updateStep, step] at hs
      split at hs <;> simp at hs
    | request =>
      simp only [updateStep, step] at hs
      split at hs <;> simp at hs
    | change id =>
      simp only [updateStep, step] at hs
      split at hs <;> simp at hs
  · simp only [keepsDelayed, not_forall, Bool.not_eq_false] at hkeeps
    obtain ⟨message, hmem, hanswer, hanswered⟩ := hkeeps
    cases action with
    | arrive index =>
      simp only [System.delivery, Option.mem_def] at hmem
      split at hmem
      next m sender hwork =>
        cases hmem
        simp only [updateStep, hwork]
        exact loaderUpdate_faults (s := s.takeWork index) hanswer hanswered
      · simp at hmem
    | _ => simp [System.delivery] at hmem

/-- Two messages wait while a directory is scanned, and are handed over after its answer. -/
theorem delayedMessages_inOrder_of_scan : ∃ s, steps (updateStep spell) System.initial
      [.post (.registerLibrary 1), .arrive 0, .post (.registerFiletype 7 0 0), .arrive 0,
        .post (.registerLibrary 2), .arrive 0, .post (.fileScan ⟨1, [], []⟩), .arrive 0] = .ok s ∧
    s.handed.map (fun a => a.task.arrival) = [0, 3, 1, 2] ∧ InOrder s := by
  have hinitial : Reachable (updateStep spell) keepsDelayed System.initial := .initial
  exact ⟨_, rfl, rfl, (delayedMessages_inOrder (hinitial.run [.post (.registerLibrary 1), .arrive 0,
    .post (.registerFiletype 7 0 0), .arrive 0, .post (.registerLibrary 2), .arrive 0,
    .post (.fileScan ⟨1, [], []⟩), .arrive 0] (by decide) rfl)).1⟩

/-- Two registrations are delivered before the answers of their scans, which arrive in the
other order: the loop reads an element that it has erased. -/
theorem delayedMessages_erasedElement : steps (updateStep spell) System.initial
      [.post (.registerLibrary 1), .arrive 0, .post (.registerLibrary 2), .arrive 0,
        .post (.fileScan ⟨2, [], []⟩), .arrive 0, .post (.fileScan ⟨1, [], []⟩), .arrive 0] =
    .error .erasedElement := rfl

/-! ## Single messages -/

theorem handMessage_delayed {s s' : System} {task : Task} (delayed : List Task)
    (h : handMessage hash s task = .ok s') :
    handMessage hash { s with delayedMessages := delayed } task =
      .ok { s' with delayedMessages := delayed } := by
  unfold handMessage at h ⊢
  split at h
  · simp at h
  next t ht =>
    cases h
    simp only [ht]

theorem delayedLoop_steps {n : ℕ} {s s' : System} {waiting waiting' : List Task}
    (hs : delayedLoop hash n s waiting 0 = .ok (s', waiting')) :
    ∃ hands, steps (step hash) { s with delayedMessages := waiting } hands =
      .ok { s' with delayedMessages := waiting' } := by
  induction n generalizing s waiting with
  | zero =>
    cases waiting with
    | nil =>
      cases hs
      exact ⟨[], rfl⟩
    | cons task rest => simp [delayedLoop] at hs
  | succ n ih =>
    cases waiting with
    | nil =>
      cases hs
      exact ⟨[], rfl⟩
    | cons task rest =>
      simp only [delayedLoop] at hs
      split at hs
      · simp at hs
      next u hu =>
        have hhand : step hash { s with delayedMessages := task :: rest } (.hand 0) =
            .ok { u with delayedMessages := rest } := by
          simp only [step, List.getElem?_cons_zero, System.takeDelayed, List.eraseIdx_cons_zero]
          exact handMessage_delayed rest hu
        split at hs
        · split at hs
          · cases hs
            exact ⟨[.hand 0], by simp only [steps, hhand]⟩
          · split at hs
            · simp at hs
            -- An answer is erased in the loop, which then faults.
            next v hv =>
              obtain ⟨e, he⟩ : ∃ e, delayedLoop hash n v (rest.eraseP fun t =>
                  answers u.scanningDirectory t.message) (0 + 1) = .error e :=
                delayedLoop_faults (.inl Nat.one_pos)
              rw [he] at hs
              simp at hs
        · obtain ⟨hands, hhands⟩ := ih hs
          exact ⟨.hand 0 :: hands, by simp only [steps, hhand, hhands]⟩

theorem steps_append {next : System → Action → Except Fault System} {s t u : System}
    {first second : List Action} (h : steps next s first = .ok t)
    (h' : steps next t second = .ok u) : steps next s (first ++ second) = .ok u := by
  induction first generalizing s with
  | nil =>
    cases h
    exact h'
  | cons action first ih =>
    simp only [steps, List.cons_append] at h ⊢
    split at h
    · simp at h
    · exact ih h

/-- `loader_update` takes single steps: the message is delivered, then delayed messages are
handed over one by one. -/
theorem loaderUpdate_steps {s s' : System} {index : ℕ} {message : Message}
    {sender : Option CallPtr} (hwork : s.works[index]? = some (.loaderUpdate message sender))
    (hs : loaderUpdate hash (s.takeWork index) message sender = .ok s') :
    ∃ actions, steps (step hash) s actions = .ok s' := by
  have harrive : step hash s (.arrive index) = .ok ((s.takeWork index).deliver message sender) := by
    simp only [step, hwork]
  have htask : ((s.takeWork index).deliver message sender).delayedMessages[s.delayedMessages.length]? =
      some ⟨message, sender, s.arrived.length⟩ := by
    simp [System.deliver, System.takeWork]
  have htake : (((s.takeWork index).deliver message sender).takeDelayed s.delayedMessages.length) =
      { s.takeWork index with arrived := s.arrived ++ [⟨message, sender, s.arrived.length⟩] } := by
    simp [System.deliver, System.takeWork, System.takeDelayed, List.eraseIdx_append_of_length_le]
  have hhand : step hash ((s.takeWork index).deliver message sender)
        (.hand s.delayedMessages.length) =
      handMessage hash
        { s.takeWork index with arrived := s.arrived ++ [⟨message, sender, s.arrived.length⟩] }
        ⟨message, sender, s.arrived.length⟩ := by
    simp only [step, htask, htake]
  simp only [loaderUpdate] at hs
  split_ifs at hs
  · exact ⟨[.arrive index, .hand s.delayedMessages.length], by
      simp only [steps, harrive, hhand]
      rw [show (s.takeWork index).arrived = s.arrived from rfl] at hs
      rw [hs]⟩
  · split at hs
    · simp at hs
    next u hu =>
      split at hs
      · simp at hs
      next v waiting hv =>
        cases hs
        obtain ⟨hands, hhands⟩ := delayedLoop_steps hv
        refine ⟨[.arrive index, .hand s.delayedMessages.length] ++ hands, steps_append ?_ hhands⟩
        simp only [steps, harrive, hhand]
        rw [show (s.takeWork index).arrived = s.arrived from rfl] at hu
        rw [hu]
  · cases hs
    exact ⟨[.arrive index], by simp only [steps, harrive]; rfl⟩

theorem Reachable.steps_of_true {next : System → Action → Except Fault System} {s s' : System}
    {actions : List Action} (h : Reachable next (fun _ _ => True) s)
    (hs : steps next s actions = .ok s') : Reachable next (fun _ _ => True) s' := by
  induction actions generalizing s with
  | nil =>
    cases hs
    exact h
  | cons action actions ih =>
    simp only [steps] at hs
    split at hs
    · simp at hs
    next t ht => exact ih (h.step trivial ht) hs

/-- Every state that runs of whole updates reach is reached in single steps. -/
theorem reachable_of_updateStep {s : System}
    (h : Reachable (updateStep hash) (fun _ _ => True) s) :
    Reachable (step hash) (fun _ _ => True) s := by
  induction h with
  | initial => exact .initial
  | @step s s' action _ _ taken ih =>
    cases action with
    | arrive index =>
      simp only [updateStep] at taken
      split at taken
      next message sender hwork =>
        obtain ⟨actions, hsteps⟩ := loaderUpdate_steps hwork taken
        exact ih.steps_of_true hsteps
      · cases taken
        exact ih
    | hand index =>
      cases taken
      exact ih
    | post message => exact @Reachable.step _ _ _ _ (.post message) ih trivial taken
    | run index requests => exact @Reachable.step _ _ _ _ (.run index requests) ih trivial taken
    | request => exact @Reachable.step _ _ _ _ (.request) ih trivial taken
    | change id => exact @Reachable.step _ _ _ _ (.change id) ih trivial taken

end Fimbulwinter.Loader
