import ResourceServer.Dispatch.Shutdown
import ResourceServer.Native.Statics

/-!
# Messages at the end of the process

The pool is constructed first and so destroyed last: its threads take messages
while `~LogicSystem` runs and behind it, and a message completed then is posted to
a system whose worker has left or will leave without it. When no message is
completed and none is on its way from the moment that destructor begins, every
message a session has completed is handled before the process ends.
-/

namespace ResourceServer

open Transition

variable {ι : Type*}

namespace Dispatch

/-- What holds of the logic system whoever uses it: it keeps the order of posts, is
stopped by its destructor, and its worker leaves only then. -/
structure Sound (s : Dispatch ι) : Prop where
  fifo : Fifo s.posted s
  isStop_iff : s.isStop = true ↔ s.destructor ≠ .notCalled
  left : s.worker = .left → s.isStop = true
  joined : s.destructor = .joined → s.worker = .left

/-- A new system is sound. -/
theorem sound_init : Sound (init : Dispatch ι) where
  fifo := fifo_init
  isStop_iff := by simp [init]
  left := by simp [init]
  joined := by simp [init]

/-- Only the destructor moves the destructor and the stop flag. -/
theorem destructor_of_step {s t : Dispatch ι} {a : DispatchAction ι} (ha : a ≠ .destruct)
    (hs : s.step a = some t) : t.destructor = s.destructor ∧ t.isStop = s.isStop := by
  cases a with
  | post node =>
    obtain ⟨_, _, _, _, hstop, hdestructor, _⟩ := post_cases hs
    exact ⟨hdestructor, hstop⟩
  | work => cases workerStep_of_dealMessage hs <;> exact ⟨rfl, rfl⟩
  | wake =>
    obtain ⟨_, rfl⟩ := wake_cases hs
    exact ⟨rfl, rfl⟩
  | destruct => exact absurd rfl ha

/-- A destructor that takes a step has been called and has stopped the system. -/
theorem destructor_of_destruct {s t : Dispatch ι} (h : s.isStop = true ↔ s.destructor ≠ .notCalled)
    (hs : s.destruct = some t) : t.destructor ≠ .notCalled ∧ t.isStop = true := by
  rcases destruct_cases hs with ⟨_, rfl⟩ | ⟨hpc, rfl⟩ | ⟨hpc, _, rfl⟩
  · simp
  · refine ⟨by simp, ?_⟩
    simp only [notify]
    split <;> exact h.mpr (by simp [hpc])
  · exact ⟨by simp, h.mpr (by simp [hpc])⟩

/-- A worker that has left stays where it is. -/
theorem left_of_step {s t : Dispatch ι} {a : DispatchAction ι} (hleft : s.worker = .left)
    (hs : s.step a = some t) : t.worker = .left := by
  cases a with
  | post node =>
    rw [(post_cases hs).2.2.2.2.2.2, if_neg (by simp [hleft]), hleft]
  | work =>
    simp only [step, dealMessage, hleft] at hs
    contradiction
  | wake =>
    have hasleep := (wake_cases hs).1
    simp [hleft] at hasleep
  | destruct =>
    rcases destruct_cases hs with ⟨_, rfl⟩ | ⟨_, rfl⟩ | ⟨_, _, rfl⟩
    · exact hleft
    · exact (worker_notify_eq_iff (by simp) (by simp)).mpr hleft
    · exact hleft

/-- What every step of any thread keeps. -/
theorem Sound.step {s t : Dispatch ι} {a : DispatchAction ι} (h : Sound s)
    (hs : s.step a = some t) : Sound t := by
  have hfifo := h.fifo.step hs
  have hflag : t.isStop = true ↔ t.destructor ≠ .notCalled := by
    by_cases ha : a = .destruct
    · subst ha
      obtain ⟨hcalled, hstop⟩ := destructor_of_destruct h.isStop_iff hs
      exact iff_of_true hstop hcalled
    · obtain ⟨hdestructor, hstop⟩ := destructor_of_step ha hs
      rw [hdestructor, hstop]
      exact h.isStop_iff
  have hmono : s.isStop = true → t.isStop = true := by
    by_cases ha : a = .destruct
    · subst ha
      exact fun _ => (destructor_of_destruct h.isStop_iff hs).2
    · rw [(destructor_of_step ha hs).2]
      exact id
  refine ⟨by rw [hfifo.posted_eq]; exact hfifo, hflag, fun hleft => ?_, fun hjoined => ?_⟩
  · by_cases hin : s.worker = .left
    · exact hmono (h.left hin)
    · exact hmono (leave_cases hs hin hleft).1
  · by_cases ha : a = .destruct
    · subst ha
      rcases destruct_cases hs with ⟨_, rfl⟩ | ⟨_, rfl⟩ | ⟨_, hleft, rfl⟩
      · contradiction
      · contradiction
      · exact hleft
    · rw [(destructor_of_step ha hs).1] at hjoined
      exact left_of_step (h.joined hjoined) hs

/-- A worker that leaves behind the last post leaves nothing queued. -/
theorem logicQue_of_left {s t : Dispatch ι} {a : DispatchAction ι}
    (h : s.worker = .left → s.logicQue = []) (hpost : posts [a] ≠ [] → s.worker ≠ .left)
    (hs : s.step a = some t) (hleft : t.worker = .left) : t.logicQue = [] := by
  by_cases hin : s.worker = .left
  · cases a with
    | post node => exact absurd hin (hpost (by simp [posts]))
    | work =>
      simp only [step, dealMessage, hin] at hs
      contradiction
    | wake =>
      have hasleep := (wake_cases hs).1
      simp [hin] at hasleep
    | destruct =>
      rcases destruct_cases hs with ⟨_, rfl⟩ | ⟨_, rfl⟩ | ⟨_, _, rfl⟩
      · exact h hin
      · exact (logicQue_notify s).trans (h hin)
      · exact h hin
  · obtain ⟨_, hq, rfl⟩ := leave_cases hs hin hleft
    exact hq

end Dispatch

/-- The side condition on steps: no message is completed once `~LogicSystem` has begun,
and it begins with no message on its way to a post. -/
def PostsInTime (s : Statics ι) : StaticsAction ι → Prop
  | .complete _ => ∀ d ∈ s.logic, d.destructor = .notCalled
  | .destroy => s.destroying = none → s.atExit.head? = some .logicSystem → s.posting = []
  | _ => True

instance [DecidableEq ι] (s : Statics ι) (a : StaticsAction ι) : Decidable (PostsInTime s a) :=
  match a with
  | .complete _ => inferInstanceAs (Decidable (∀ d ∈ s.logic, d.destructor = .notCalled))
  | .destroy => inferInstanceAs (Decidable
      (s.destroying = none → s.atExit.head? = some .logicSystem → s.posting = []))
  | .start | .getInstance | .post _ | .work | .wake | .exit => isTrue trivial

namespace Statics

/-- The nodes posted to the logic system. -/
def posted (s : Statics ι) : List (LogicNode ι) :=
  match s.logic with
  | none => []
  | some d => d.posted

/-- What the sessions rely on: no post comes behind the worker, and at the end of the
process every message they have completed has been handled. -/
structure Served (s : Statics ι) : Prop where
  late : s.late = []
  handled : s.Ended → s.invoked.Perm (invocations s.completed)

/-- Which destructors are to come, which is running, and which messages are on their way. -/
structure Placed (s : Statics ι) : Prop where
  sound : ∀ d ∈ s.logic, d.Sound
  perm : (s.posted ++ s.posting).Perm s.completed
  running : s.pool = .running → .asioIoServicePool ∈ s.atExit
  posting : s.posting ≠ [] → .asioIoServicePool ∈ s.atExit ∨ s.destroying = some .asioIoServicePool
  logic : ∀ d ∈ s.logic, .logicSystem ∈ s.atExit ∨ s.destroying = some .logicSystem ∨
    d.destructor = .joined
  begun : s.destroying = some .logicSystem → ∃ d ∈ s.logic, d.destructor ≠ .notCalled

/-- No static is built at first. -/
theorem placed_init : Placed (init : Statics ι) where
  sound d hd := by simp [init] at hd
  perm := by simp [init, posted]
  running h := by simp [init] at h
  posting h := absurd rfl h
  logic d hd := by simp [init] at hd
  begun h := by simp [init] at h

/-- A step of the logic system that posts nothing moves the logic system alone. -/
theorem Placed.logicStep {s : Statics ι} (h : Placed s) {d d' : Dispatch ι}
    {a : DispatchAction ι} (hd : s.logic = some d) (ha : a ≠ .destruct)
    (hs : d.step a = some d') {posting completed : List (LogicNode ι)}
    (hperm : (d'.posted ++ posting).Perm completed) (hposting : posting ≠ [] → s.posting ≠ [])
    (late : List (LogicNode ι)) : Placed { s with
      logic := some d', posting := posting, completed := completed, late := late } where
  sound e he := by
    cases he
    exact (h.sound d hd).step hs
  perm := hperm
  running := h.running
  posting hne := h.posting (hposting hne)
  logic e he := by
    cases he
    rw [(Dispatch.destructor_of_step ha hs).1]
    exact h.logic d hd
  begun hdestroying := by
    obtain ⟨e, he, hcalled⟩ := h.begun hdestroying
    cases hd.symm.trans he
    exact ⟨d', rfl, (Dispatch.destructor_of_step ha hs).1.symm ▸ hcalled⟩

/-- A step of `~LogicSystem` posts nothing, and has begun the destructor. -/
theorem Placed.destruct {s : Statics ι} (h : Placed s) {d d' : Dispatch ι} (hd : s.logic = some d)
    (hdd' : d.destruct = some d') :
    d'.Sound ∧ (d'.posted ++ s.posting).Perm s.completed ∧ d'.destructor ≠ .notCalled := by
  have hsound := h.sound d hd
  have hperm := h.perm
  simp only [posted, hd] at hperm
  rw [(hsound.fifo.destruct hdd').posted_eq]
  exact ⟨hsound.step (a := .destruct) hdd', hperm,
    (Dispatch.destructor_of_destruct hsound.isStop_iff hdd').1⟩

/-- A step of the destructors keeps them in their places. -/
theorem Placed.destroy {s t : Statics ι} (h : Placed s) (hs : s.destroy = some t) :
    Placed t := by
  rcases destroy_cases hs with ⟨rest, d, d', hnone, hexit, hd, hdd', rfl⟩ |
    ⟨rest, hnone, hexit, rfl⟩ | ⟨d, d', hdestroying, hd, hdd', rfl⟩ | ⟨hdestroying, hempty, rfl⟩
  · obtain ⟨hsound, hperm, hcalled⟩ := h.destruct hd hdd'
    refine ⟨?_, hperm, ?_, ?_, fun _ _ => Or.inr (Or.inl rfl), fun _ => ⟨d', rfl, hcalled⟩⟩
    · rintro e ⟨⟩
      exact hsound
    · intro hrunning
      have hmem := h.running hrunning
      rw [hexit] at hmem
      simpa using hmem
    · intro hne
      have hmem := h.posting hne
      rw [hexit, hnone] at hmem
      simpa using hmem
  · refine ⟨h.sound, h.perm, by simp, fun _ => Or.inr rfl, ?_, by simp⟩
    intro d hd
    have hmem := h.logic d hd
    rw [hexit, hnone] at hmem
    simpa using hmem
  · obtain ⟨hsound, hperm, hcalled⟩ := h.destruct hd hdd'
    refine ⟨?_, hperm, h.running, ?_, ?_, fun _ => ⟨d', rfl, hcalled⟩⟩
    · rintro e ⟨⟩
      exact hsound
    · intro hne
      have hmem := h.posting hne
      rw [hdestroying] at hmem
      exact Or.inl (by simpa using hmem)
    · rintro e ⟨⟩
      by_cases hjoined : d'.destructor = .joined
      · exact Or.inr (Or.inr hjoined)
      · exact Or.inr (Or.inl (if_neg hjoined))
  · refine ⟨h.sound, h.perm, by simp, fun hne => absurd hempty hne, ?_, by simp⟩
    intro d hd
    have hmem := h.logic d hd
    rw [hdestroying] at hmem
    simpa using hmem

/-- What holds while messages come in time: the worker leaves with nothing queued and
nothing on its way. -/
structure Tidy (s : Statics ι) : Prop where
  drained : ∀ d ∈ s.logic, d.worker = .left → d.logicQue = []
  quiet : ∀ d ∈ s.logic, d.destructor ≠ .notCalled → s.posting = []
  late : s.late = []

/-- Nothing is posted before the statics are built. -/
theorem tidy_init : Tidy (init : Statics ι) where
  drained d hd := by simp [init] at hd
  quiet d hd := by simp [init] at hd
  late := rfl

/-- While a message is on its way the worker has not left. -/
theorem Tidy.worker_ne_left {s : Statics ι} (h : Tidy s) (hp : Placed s) {d : Dispatch ι}
    (hd : s.logic = some d) (hne : s.posting ≠ []) : d.worker ≠ .left := by
  intro hleft
  have hsound := hp.sound d hd
  exact hne (h.quiet d hd (hsound.isStop_iff.mp (hsound.left hleft)))

/-- A step of the logic system by a thread of its own or by a post before its destructor. -/
theorem Tidy.logicStep {s : Statics ι} (h : Tidy s) {d d' : Dispatch ι} {a : DispatchAction ι}
    (hd : s.logic = some d) (ha : a ≠ .destruct) (hs : d.step a = some d')
    (hpost : posts [a] ≠ [] → d.worker ≠ .left) {posting : List (LogicNode ι)}
    (hposting : s.posting = [] → posting = []) :
    Tidy { s with logic := some d', posting := posting } where
  drained := by
    rintro e ⟨⟩
    exact Dispatch.logicQue_of_left (h.drained d hd) hpost hs
  quiet := by
    rintro e ⟨⟩ hcalled
    rw [(Dispatch.destructor_of_step ha hs).1] at hcalled
    exact hposting (h.quiet d hd hcalled)
  late := h.late

/-- The destructors run with nothing on its way. -/
theorem Tidy.destroy {s t : Statics ι} (h : Tidy s) (hp : Placed s)
    (hok : PostsInTime s .destroy) (hs : s.destroy = some t) : Tidy t := by
  have hlogic : ∀ {d d' : Dispatch ι}, s.logic = some d → d.destruct = some d' →
      d'.worker = .left → d'.logicQue = [] := by
    intro d d' hd hdd'
    exact Dispatch.logicQue_of_left (a := .destruct) (h.drained d hd)
      (fun hpost => absurd rfl hpost) hdd'
  rcases destroy_cases hs with ⟨rest, d, d', hnone, hexit, hd, hdd', rfl⟩ | ⟨_, _, _, rfl⟩ |
    ⟨d, d', hdestroying, hd, hdd', rfl⟩ | ⟨_, _, rfl⟩
  · refine ⟨?_, fun _ _ _ => hok hnone (by rw [hexit]; rfl), h.late⟩
    rintro e ⟨⟩
    exact hlogic hd hdd'
  · exact ⟨h.drained, h.quiet, h.late⟩
  · obtain ⟨e, he, hcalled⟩ := hp.begun hdestroying
    refine ⟨?_, fun _ _ _ => h.quiet e he hcalled, h.late⟩
    rintro e ⟨⟩
    exact hlogic hd hdd'
  · exact ⟨h.drained, h.quiet, h.late⟩

/-- A process that ends so has handled every message. -/
theorem Tidy.served {s : Statics ι} (h : Tidy s) (hp : Placed s) : Served s where
  late := h.late
  handled := by
    rintro ⟨_, hnone, hexit⟩
    have hposting : s.posting = [] := by
      by_contra hne
      have hmem := hp.posting hne
      rw [hexit, hnone] at hmem
      simp at hmem
    have hperm := hp.perm
    rw [hposting, List.append_nil] at hperm
    refine List.Perm.trans ?_ (hperm.filterMap LogicNode.invocation)
    cases hd : s.logic with
    | none => simp [invoked, posted, hd]
    | some d =>
      have hjoined := hp.logic d hd
      rw [hexit, hnone] at hjoined
      have hsound := hp.sound d hd
      have hleft := hsound.joined (by simpa using hjoined)
      simp only [invoked, posted, hd]
      rw [hsound.fifo.invoked_eq (h.drained d hd hleft), invocations]

variable [DecidableEq ι]

/-- Every step keeps the destructors in their places. -/
theorem Placed.step {s t : Statics ι} {a : StaticsAction ι} (h : Placed s)
    (hs : s.step a = some t) : Placed t := by
  cases a with
  | start =>
    obtain ⟨_, hs⟩ := Option.ite_none_left_eq_some.mp hs
    split at hs
    · cases hs
      refine ⟨h.sound, h.perm, by simp, fun hne => ?_, fun d hd => ?_, h.begun⟩
      · exact Or.inl (by simp)
      · exact (h.logic d hd).imp_left (List.mem_cons_of_mem _)
    · cases hs
      exact h
  | complete node =>
    obtain ⟨hrunning, ⟨⟩⟩ := Option.ite_none_right_eq_some.mp hs
    refine ⟨h.sound, ?_, h.running, fun _ => Or.inl (h.running hrunning), h.logic, h.begun⟩
    have hperm := h.perm.append_right [node]
    rwa [List.append_assoc] at hperm
  | getInstance =>
    obtain ⟨_, hs⟩ := Option.ite_none_left_eq_some.mp hs
    split at hs
    · rename_i hnone
      cases hs
      rw [Option.isNone_iff_eq_none] at hnone
      refine ⟨?_, ?_, ?_, ?_, ?_, ?_⟩
      · rintro d ⟨⟩
        exact Dispatch.sound_init
      · have hperm := h.perm
        simp only [posted, hnone] at hperm
        simpa only [posted, Dispatch.init] using hperm
      · exact fun hrunning => List.mem_cons_of_mem _ (h.running hrunning)
      · exact fun hne => (h.posting hne).imp_left (List.mem_cons_of_mem _)
      · exact fun _ _ => Or.inl List.mem_cons_self
      · intro hdestroying
        obtain ⟨d, hd, _⟩ := h.begun hdestroying
        rw [hnone] at hd
        contradiction
    · cases hs
      exact h
  | post node =>
    obtain ⟨hmem, d, d', hd, hdd', rfl⟩ := post_cases hs
    refine h.logicStep hd (a := .post node) (by simp) hdd' ?_ ?_ _
    · have hperm := h.perm
      simp only [posted, hd] at hperm
      rw [(Dispatch.post_cases hdd').2.2.1, List.append_assoc]
      exact ((List.perm_cons_erase hmem).symm.append_left d.posted).trans hperm
    · exact fun _ => List.ne_nil_of_mem hmem
  | work =>
    obtain ⟨d, d', hd, hdd', rfl⟩ := work_cases hs
    refine h.logicStep hd (a := .work) (by simp) hdd' ?_ id _
    have hperm := h.perm
    simp only [posted, hd] at hperm
    rwa [(Dispatch.workerStep_of_dealMessage hdd').effect.1]
  | wake =>
    obtain ⟨d, d', hd, hdd', rfl⟩ := wake_cases hs
    refine h.logicStep hd (a := .wake) (by simp) hdd' ?_ id _
    have hperm := h.perm
    simp only [posted, hd] at hperm
    obtain ⟨_, rfl⟩ := Dispatch.wake_cases hdd'
    exact hperm
  | exit =>
    obtain ⟨_, ⟨⟩⟩ := Option.ite_none_left_eq_some.mp hs
    exact ⟨h.sound, h.perm, h.running, h.posting, h.logic, h.begun⟩
  | destroy =>
    obtain ⟨_, hs⟩ := Option.ite_none_right_eq_some.mp hs
    exact h.destroy hs

/-- The places of the destructors in every run. -/
theorem placed_of_run {as : List (StaticsAction ι)} {s : Statics ι}
    (h : run step init as = some s) : Placed s :=
  run_invariant placed_init (fun _ _ _ hs ht => hs.step ht) h

/-- Every step that comes in time keeps the worker from being missed. -/
theorem Tidy.step {s t : Statics ι} {a : StaticsAction ι} (h : Tidy s) (hp : Placed s)
    (hok : PostsInTime s a) (hs : s.step a = some t) : Tidy t := by
  cases a with
  | start =>
    obtain ⟨_, hs⟩ := Option.ite_none_left_eq_some.mp hs
    split at hs <;> cases hs <;> exact ⟨h.drained, h.quiet, h.late⟩
  | complete node =>
    obtain ⟨_, ⟨⟩⟩ := Option.ite_none_right_eq_some.mp hs
    exact ⟨h.drained, fun d hd hcalled => absurd (hok d hd) hcalled, h.late⟩
  | getInstance =>
    obtain ⟨_, hs⟩ := Option.ite_none_left_eq_some.mp hs
    split at hs
    · cases hs
      refine ⟨?_, ?_, h.late⟩
      · rintro d ⟨⟩
        simp [Dispatch.init]
      · rintro d ⟨⟩
        simp [Dispatch.init]
    · cases hs
      exact h
  | post node =>
    obtain ⟨hmem, d, d', hd, hdd', rfl⟩ := post_cases hs
    have hin := h.worker_ne_left hp hd (List.ne_nil_of_mem hmem)
    rw [if_neg hin]
    refine h.logicStep hd (a := .post node) (by simp) hdd' (fun _ => hin) fun hnil => ?_
    rw [hnil] at hmem
    contradiction
  | work =>
    obtain ⟨d, d', hd, hdd', rfl⟩ := work_cases hs
    exact h.logicStep hd (a := .work) (by simp) hdd' (fun hne => absurd rfl hne) id
  | wake =>
    obtain ⟨d, d', hd, hdd', rfl⟩ := wake_cases hs
    exact h.logicStep hd (a := .wake) (by simp) hdd' (fun hne => absurd rfl hne) id
  | exit =>
    obtain ⟨_, ⟨⟩⟩ := Option.ite_none_left_eq_some.mp hs
    exact ⟨h.drained, h.quiet, h.late⟩
  | destroy =>
    obtain ⟨_, hs⟩ := Option.ite_none_right_eq_some.mp hs
    exact h.destroy hp hok hs

/-- A run whose messages come in time misses none of them. -/
theorem tidy_of_run {as : List (StaticsAction ι)} {s : Statics ι}
    (hok : Along step PostsInTime init as) (h : run step init as = some s) : Tidy s := by
  have hboth : Placed s ∧ Tidy s := by
    refine run_invariant_along (P := fun s => Placed s ∧ Tidy s) ⟨placed_init, tidy_init⟩ ?_ hok h
    intro s a t hs ha ht
    exact ⟨hs.1.step ht, hs.2.step hs.1 ha ht⟩
  exact hboth.2

/-- The steps its worker still has to take. -/
def remaining (s : Statics ι) : Nat :=
  match s.logic with
  | none => 0
  | some d => d.remaining

/-- A message on its way to a system that is stopped may be posted behind the worker. -/
theorem exists_late {s : Statics ι} {d : Dispatch ι} {node : LogicNode ι} (hd : s.logic = some d)
    (hstop : d.isStop = true) (hnode : node ∈ s.posting) :
    ∃ cs t, (∀ c ∈ cs, c.Draining) ∧ run step s cs = some t ∧ t.late ≠ [] := by
  have hdrain : ∀ u : Statics ι, (∃ e ∈ u.logic, e.isStop = true ∧ node ∈ u.posting) →
      (¬ ∃ e ∈ u.logic, e.worker = .left) → ∃ a v, a.Draining ∧ u.step a = some v ∧
        (∃ e ∈ v.logic, e.isStop = true ∧ node ∈ v.posting) ∧ v.remaining < u.remaining := by
    rintro u ⟨e, he, hstop, hnode⟩ hin
    obtain ⟨a, e', ha, hee', hstop', _, hlt⟩ :=
      Dispatch.exists_step_of_isStop hstop fun hleft => hin ⟨e, he, hleft⟩
    rw [Option.mem_def] at he
    rcases ha with rfl | rfl
    · refine ⟨.work, { u with logic := some e' }, trivial, ?_, ⟨e', rfl, hstop', hnode⟩, ?_⟩
      · have hwork : e.dealMessage = some e' := hee'
        simp only [step, he, Option.bind_some, hwork, Option.map_some]
      · simpa only [remaining, he] using hlt
    · refine ⟨.wake, { u with logic := some e' }, trivial, ?_, ⟨e', rfl, hstop', hnode⟩, ?_⟩
      · simp only [step, he, Option.bind_some, hee', Option.map_some]
      · simpa only [remaining, he] using hlt
  obtain ⟨cs, u, hcs, hu, ⟨e, he, _, hnode⟩, ⟨e', he', hleft⟩⟩ :=
    exists_run_of_decreasing remaining hdrain ⟨d, hd, hstop, hnode⟩
  cases Option.mem_unique he he'
  rw [Option.mem_def] at he
  obtain ⟨e', hpost⟩ : ∃ e', e.post node = some e' := by
    refine Option.ne_none_iff_exists'.mp (Dispatch.post_ne_none ?_)
    rw [hleft]
    exact id
  refine ⟨cs ++ [.post node], { u with
    logic := some e', posting := u.posting.erase node, late := u.late ++ [node] }, ?_, ?_, by simp⟩
  · intro c hc
    rcases List.mem_append.mp hc with hc | hc
    · exact hcs c hc
    · cases List.mem_singleton.mp hc
      trivial
  · refine run_snoc_eq_some.mpr ⟨u, hu, ?_⟩
    simp only [step, hnode, he, hpost, hleft, if_true, Option.bind_some, Option.map_some]

/-- A step out of time leaves a stopped system and a message on its way to it. -/
theorem exists_late_of_not_inTime {s t : Statics ι} {a : StaticsAction ι} (h : Placed s)
    (hs : s.step a = some t) (hok : ¬ PostsInTime s a) :
    ∃ cs u, (∀ c ∈ cs, c.Draining) ∧ run step t cs = some u ∧ ¬ u.Served := by
  have hfound : ∃ d node, t.logic = some d ∧ d.isStop = true ∧ node ∈ t.posting := by
    cases a with
    | start | getInstance | post node | work | wake | exit => exact absurd trivial hok
    | complete node =>
      obtain ⟨_, ⟨⟩⟩ := Option.ite_none_right_eq_some.mp hs
      simp only [PostsInTime, not_forall] at hok
      obtain ⟨d, hd, hcalled⟩ := hok
      exact ⟨d, node, hd, (h.sound d hd).isStop_iff.mpr hcalled, by simp⟩
    | destroy =>
      obtain ⟨_, hs⟩ := Option.ite_none_right_eq_some.mp hs
      simp only [PostsInTime, Classical.not_imp] at hok
      obtain ⟨hnone, hhead, hne⟩ := hok
      obtain ⟨node, hnode⟩ := List.exists_mem_of_ne_nil _ hne
      obtain ⟨rest, hexit⟩ := List.head?_eq_some_iff.mp hhead
      simp only [Statics.destroy, hnone, hexit] at hs
      obtain ⟨d', hd', rfl⟩ := Option.map_eq_some_iff.mp hs
      obtain ⟨d, hd, hdd'⟩ := Option.bind_eq_some_iff.mp hd'
      have hstop := (Dispatch.destructor_of_destruct (h.sound d hd).isStop_iff hdd').2
      exact ⟨d', node, rfl, hstop, hnode⟩
  obtain ⟨d, node, hd, hstop, hnode⟩ := hfound
  obtain ⟨cs, u, hcs, hu, hlate⟩ := exists_late hd hstop hnode
  exact ⟨cs, u, hcs, hu, fun hserved => hlate hserved.late⟩

/-- A test message that arrives while the statics are destroyed. -/
private def lateMessage : List (StaticsAction Nat) :=
  [.start, .complete ⟨8, ⟨⟨[1, 0], 1, 1⟩, .idTestMsgReq⟩⟩, .getInstance,
    .post ⟨8, ⟨⟨[1, 0], 1, 1⟩, .idTestMsgReq⟩⟩, .exit, .destroy, .destroy, .work, .work, .work,
    .work, .work, .destroy, .complete ⟨8, ⟨⟨[2, 0], 1, 1⟩, .idTestMsgReq⟩⟩,
    .post ⟨8, ⟨⟨[2, 0], 1, 1⟩, .idTestMsgReq⟩⟩, .destroy, .destroy]

/-- The process ends with a message that was completed, posted behind the worker, and
never handled. -/
theorem not_served : ∃ s, run step init lateMessage = some s ∧ s.Ended ∧
    s.late = [⟨8, ⟨⟨[2, 0], 1, 1⟩, .idTestMsgReq⟩⟩] ∧ s.invoked.length = 1 ∧
    s.completed.length = 2 := by
  have hrun : (run step init lateMessage).any fun s => s.Ended ∧
      s.late = [⟨8, ⟨⟨[2, 0], 1, 1⟩, .idTestMsgReq⟩⟩] ∧ s.invoked.length = 1 ∧
        s.completed.length = 2 := by
    decide +kernel
  obtain ⟨s, hs, hlast⟩ := (Option.any_eq_true _ _).mp hrun
  exact ⟨s, hs, of_decide_eq_true hlast⟩

/-- The sessions are served to the end exactly when no message is completed once
`~LogicSystem` has begun and it begins with none on its way: in no moment of such a run
is a message posted behind the worker, and none is unhandled when the process ends; a
run with a step that does not meet this has a moment from which the threads, without
another message, go on to such a post. -/
theorem served_iff_postsInTime (as : List (StaticsAction ι)) (s : Statics ι)
    (h : run step init as = some s) :
    Along step PostsInTime init as ↔ ∀ bs cs t, bs <+: as → (∀ a ∈ cs, a.Draining) →
      run step init (bs ++ cs) = some t → t.Served := by
  refine along_iff_never (fun a ha t => ?_) (fun bs t hok ht => ?_) (fun bs t a u ht hu hok => ?_) h
  · cases a with
    | post node | work | wake => trivial
    | start | complete node | getInstance | exit | destroy => exact ha.elim
  · exact (tidy_of_run hok ht).served (placed_of_run ht)
  · exact exists_late_of_not_inTime (placed_of_run ht) hu hok

/-- A test message that is posted, by the handler that constructs the logic system, while
`main` returns. -/
private def lastMessage : List (StaticsAction Nat) :=
  [.start, .complete ⟨9, ⟨⟨[5, 0], 1, 1⟩, .idTestMsgReq⟩⟩, .exit, .getInstance,
    .post ⟨9, ⟨⟨[5, 0], 1, 1⟩, .idTestMsgReq⟩⟩, .destroy, .destroy, .work, .work, .work, .work,
    .work, .destroy, .destroy, .destroy]

/-- A message posted in time is served before the process ends. -/
theorem served_iff_postsInTime_last :
    ∃ s, run step init lastMessage = some s ∧ s.Ended ∧ s.Served := by
  have hrun : (run step init lastMessage).any fun s => s.Ended := by decide +kernel
  have hok : Along step PostsInTime init lastMessage := by decide +kernel
  obtain ⟨s, hs, hended⟩ := (Option.any_eq_true _ _).mp hrun
  refine ⟨s, hs, of_decide_eq_true hended, ?_⟩
  refine (served_iff_postsInTime lastMessage s hs).mp hok lastMessage [] s List.prefix_rfl
    (by simp) ?_
  rw [List.append_nil, hs]

end Statics

end ResourceServer
