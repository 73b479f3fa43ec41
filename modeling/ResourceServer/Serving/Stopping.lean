import Mathlib.Algebra.Order.BigOperators.Group.Finset
import ResourceServer.Core.Progress
import ResourceServer.Native.PoolStop
import ResourceServer.Serving.Handlers

/-!
# The pool comes to its end

`stop` is never blocked before it joins, and nobody takes a handler any more from then
on: the handlers being executed run to their end, `run ()` returns to every thread, and
`stop` returns. Behind it no thread of the pool executes anything.
-/

namespace ResourceServer

open Transition

/-- Service `m` was stopped by `stop`. -/
def StopPc.Stops (m : Nat) : StopPc → Prop
  | .notCalled | .resetting _ => False
  | .stopping k => m < k
  | .joining _ | .returned => True

/-- Thread `t` was joined. -/
def StopPc.Joined (t : Nat) : StopPc → Prop
  | .notCalled | .resetting _ | .stopping _ => False
  | .joining k => t < k
  | .returned => True

/-- Every service was stopped by `stop`. -/
def StopPc.Joining : StopPc → Prop
  | .notCalled | .resetting _ | .stopping _ => False
  | .joining _ | .returned => True

/-- The steps `stop` has taken, for `size` services with `n` threads. -/
def StopPc.taken (size n : Nat) : StopPc → Nat
  | .notCalled => 0
  | .resetting k => k
  | .stopping k => size + 1 + k
  | .joining k => 2 * (size + 1) + k
  | .returned => 2 * (size + 1) + n + 1

/-- The main thread is within the bounds of its loops. -/
def StopPc.Within (size n : Nat) : StopPc → Prop
  | .notCalled | .returned => True
  | .resetting k | .stopping k => k ≤ size
  | .joining k => k ≤ n

/-- The steps left to `stop` where it joins `n` threads. -/
def StopPc.joinsLeft (n : Nat) : StopPc → Nat
  | .joining k => n - k + 1
  | .notCalled | .resetting _ | .stopping _ | .returned => 0

/-- Once threads are being joined, every service has been stopped. -/
theorem StopPc.stops_of_joining {pc : StopPc} (h : pc.Joining) (m : Nat) : pc.Stops m := by
  cases pc with
  | joining | returned => trivial
  | notCalled | resetting | stopping => exact h.elim

variable {ι : Type*}

/-- The steps of `stop` and of the pool's threads. -/
def PoolStopAction.own : PoolStopAction ι → Bool
  | .next | .leave _ | .pool (.take _ _) | .pool (.body _) | .pool (.finish _) => true
  | .call | .pool (.construct _) | .pool (.start _) | .pool (.send _)
  | .pool (.complete _ _ _) => false

/-- The steps of `stop`. -/
def PoolStopAction.ofStop : PoolStopAction ι → Bool
  | .next => true
  | .pool _ | .call | .leave _ => false

namespace Pool

/-- Every service of the pool has two threads. -/
theorem length_threads (size : Nat) : (threads size).length = 2 * size := by
  rw [threads, List.length_append, List.length_range]
  omega

/-- What the steps of handlers left to a thread are. -/
def handlerLeft : Option (Completion ι × Bool) → Nat
  | none => 0
  | some (_, true) => 1
  | some (_, false) => 2

variable [DecidableEq ι]

/-- A step of the pool moves the handler of one thread at most. -/
theorem running_of_step {size : Nat} {s t : Pool ι} {a : PoolAction ι}
    (hs : step size s a = some t) :
    ¬ a.OnThread ∧ t.running = s.running ∧ s.ready <+: t.ready ∨
      (∃ u k, a = .take u k) ∨
      (∃ u c, a = .body u ∧ s.running u = some (c, false) ∧
        t.running = Function.update s.running u (some (c, true))) ∨
      ∃ u c, a = .finish u ∧ s.running u = some (c, true) ∧
        t.running = Function.update s.running u none := by
  cases a with
  | construct i =>
    obtain ⟨_, _, rfl⟩ := construct_cases hs
    exact Or.inl ⟨id, rfl, List.prefix_rfl⟩
  | start i =>
    obtain ⟨x, _, rfl⟩ := start_cases hs
    exact Or.inl ⟨id, rfl, List.prefix_rfl⟩
  | send i =>
    obtain ⟨x, _, rfl⟩ := send_cases hs
    exact Or.inl ⟨id, rfl, List.prefix_rfl⟩
  | complete i op ok =>
    obtain ⟨x, _, rfl⟩ := complete_cases hs
    exact Or.inl ⟨id, rfl, List.prefix_append _ _⟩
  | take u k => exact Or.inr (Or.inl ⟨u, k, rfl⟩)
  | body u =>
    obtain ⟨c, x, hc, _, rfl⟩ := body_cases hs
    exact Or.inr (Or.inr (Or.inl ⟨u, c, rfl, hc, rfl⟩))
  | finish u =>
    simp only [step] at hs
    split at hs
    · rename_i c hc
      cases hs
      exact Or.inr (Or.inr (Or.inr ⟨u, c, rfl, hc, rfl⟩))
    · contradiction

end Pool

namespace PoolStop

variable {size : Nat} {s t : PoolStop ι}

/-- A thread leaves once, with no handler, and leaves its service stopped. -/
theorem leave_cases {u : Nat} (h : s.leave size u = some t) :
    ∃ m, (Pool.threads size)[u]? = some m ∧ u ∉ s.left ∧ s.running u = none ∧
      t = { s with stopped := m :: s.stopped, left := u :: s.left } := by
  obtain ⟨m, hm, h⟩ := Option.bind_eq_some_iff.mp h
  obtain ⟨⟨hin, hidle, _⟩, ⟨⟩⟩ := Option.ite_none_right_eq_some.mp h
  exact ⟨m, hm, hin, hidle, rfl⟩

/-- The steps of `stop`, one case each. -/
inductive NextStep (size : Nat) (s : PoolStop ι) : PoolStop ι → Prop
  | reset (k : Nat) (hpc : s.stopPc = .resetting k) (hk : k < size) :
      NextStep size s { s with stopPc := .resetting (k + 1) }
  | resetAll (k : Nat) (hpc : s.stopPc = .resetting k) (hk : ¬ k < size) :
      NextStep size s { s with stopPc := .stopping 0 }
  | stop (k : Nat) (hpc : s.stopPc = .stopping k) (hk : k < size) :
      NextStep size s { s with stopPc := .stopping (k + 1), stopped := k :: s.stopped }
  | stopAll (k : Nat) (hpc : s.stopPc = .stopping k) (hk : ¬ k < size) :
      NextStep size s { s with stopPc := .joining 0 }
  | join (k : Nat) (hpc : s.stopPc = .joining k) (hk : k < (Pool.threads size).length)
      (hleft : k ∈ s.left) : NextStep size s { s with stopPc := .joining (k + 1) }
  | joinAll (k : Nat) (hpc : s.stopPc = .joining k) (hk : ¬ k < (Pool.threads size).length) :
      NextStep size s { s with stopPc := .returned }

/-- What one step of the call to stop does. -/
theorem nextStep_of_next (h : s.next size = some t) : NextStep size s t := by
  unfold next at h
  cases hpc : s.stopPc with
  | notCalled | returned => simp only [hpc, reduceCtorEq] at h
  | resetting k =>
    simp only [hpc, Option.some.injEq] at h
    subst h
    split
    · exact .reset k hpc ‹_›
    · exact .resetAll k hpc ‹_›
  | stopping k =>
    simp only [hpc, Option.some.injEq] at h
    subst h
    split
    · exact .stop k hpc ‹_›
    · exact .stopAll k hpc ‹_›
  | joining k =>
    simp only [hpc] at h
    split at h
    · obtain ⟨hleft, ⟨⟩⟩ := Option.ite_none_right_eq_some.mp h
      exact .join k hpc ‹_› hleft
    · cases h
      exact .joinAll k hpc ‹_›

/-- The invariant of every run. -/
structure Orderly (size : Nat) (s : PoolStop ι) : Prop where
  seated : Pool.Seated size s.toPool
  /-- No handler is executed on a thread that has left. -/
  idle : ∀ u ∈ s.left, s.running u = none
  stops : ∀ m < size, s.stopPc.Stops m → m ∈ s.stopped
  joined : ∀ u < (Pool.threads size).length, s.stopPc.Joined u → u ∈ s.left

/-- A pool that nobody has stopped is orderly. -/
theorem orderly_init (size : Nat) : Orderly size (init : PoolStop ι) where
  seated := Pool.seated_init size
  idle _ h := absurd h List.not_mem_nil
  stops _ _ h := h.elim
  joined _ _ h := h.elim

/-- The call to stop keeps the order. -/
theorem Orderly.next (h : s.Orderly size) (hs : s.next size = some t) : t.Orderly size := by
  cases nextStep_of_next hs with
  | reset k hpc hk => exact ⟨h.seated, h.idle, fun _ _ hm => hm.elim, fun _ _ hu => hu.elim⟩
  | resetAll k hpc hk =>
    exact ⟨h.seated, h.idle, fun _ _ hm => absurd hm (Nat.not_lt_zero _), fun _ _ hu => hu.elim⟩
  | stop k hpc hk =>
    refine ⟨h.seated, h.idle, fun m hm hstops => ?_, fun _ _ hu => hu.elim⟩
    rcases Nat.lt_succ_iff_lt_or_eq.mp hstops with hlt | rfl
    · exact List.mem_cons_of_mem _ (h.stops m hm (by rw [hpc]; exact hlt))
    · exact List.mem_cons_self
  | stopAll k hpc hk =>
    refine ⟨h.seated, h.idle, fun m hm _ => h.stops m hm ?_, fun _ _ hu =>
      absurd hu (Nat.not_lt_zero _)⟩
    rw [hpc]
    exact Nat.lt_of_lt_of_le hm (Nat.le_of_not_lt hk)
  | join k hpc hk hleft =>
    refine ⟨h.seated, h.idle, fun m hm _ => h.stops m hm (by rw [hpc]; trivial), ?_⟩
    intro u hu hjoined
    rcases Nat.lt_succ_iff_lt_or_eq.mp hjoined with hlt | rfl
    · exact h.joined u hu (by rw [hpc]; exact hlt)
    · exact hleft
  | joinAll k hpc hk =>
    refine ⟨h.seated, h.idle, fun m hm _ => h.stops m hm (by rw [hpc]; trivial), ?_⟩
    intro u hu _
    refine h.joined u hu ?_
    rw [hpc]
    exact Nat.lt_of_lt_of_le hu (Nat.le_of_not_lt hk)

/-- A thread that leaves keeps the order. -/
theorem Orderly.leave {u : Nat} (h : s.Orderly size) (hs : s.leave size u = some t) :
    t.Orderly size := by
  obtain ⟨m, hm, _, hidle, rfl⟩ := leave_cases hs
  refine ⟨h.seated, fun v hv => ?_, fun n hn hstops => ?_, fun v hv hjoined => ?_⟩
  · rcases List.mem_cons.mp hv with rfl | hv
    · exact hidle
    · exact h.idle v hv
  · exact List.mem_cons_of_mem _ (h.stops n hn hstops)
  · exact List.mem_cons_of_mem _ (h.joined v hv hjoined)

/-- The steps left to thread `u` where its service is stopped. -/
def threadLeft (s : PoolStop ι) (u : Nat) : Nat :=
  (if u ∈ s.left then 0 else 1) + Pool.handlerLeft (s.running u)

/-- The steps left to `stop` and the threads where every service is stopped. -/
def remaining (size : Nat) (s : PoolStop ι) : Nat :=
  s.stopPc.joinsLeft (Pool.threads size).length +
    ∑ u : Fin (Pool.threads size).length, s.threadLeft u

/-- A step of one thread, when the others stay as they are. -/
theorem remaining_lt_of_thread {u : Nat} (hu : u < (Pool.threads size).length)
    (hpc : t.stopPc = s.stopPc) (hlt : t.threadLeft u < s.threadLeft u)
    (hother : ∀ v, v ≠ u → t.threadLeft v = s.threadLeft v) :
    t.remaining size < s.remaining size := by
  unfold remaining
  rw [hpc]
  refine Nat.add_lt_add_left (sum_lt_of_component
    (f := fun v : Fin (Pool.threads size).length => s.threadLeft v) ⟨u, hu⟩ hlt ?_) _
  exact fun v hv => hother v fun h => hv (Fin.ext h)

/-- Thread `u` goes on with its handler. -/
theorem threadLeft_of_update (hleft : t.left = s.left) {u : Nat}
    {r : Option (Completion ι × Bool)} (hrun : t.running = Function.update s.running u r)
    (hlt : Pool.handlerLeft r < Pool.handlerLeft (s.running u)) :
    t.threadLeft u < s.threadLeft u ∧ ∀ v, v ≠ u → t.threadLeft v = s.threadLeft v := by
  refine ⟨?_, fun v hv => ?_⟩
  · simp only [threadLeft, hleft, hrun, Function.update_self]
    exact Nat.add_lt_add_left hlt _
  · simp only [threadLeft, hleft, hrun, Function.update_of_ne hv]

/-- No more than eight steps for every service, and one more, are left. -/
theorem remaining_le (size : Nat) (s : PoolStop ι) : s.remaining size ≤ 8 * size + 1 := by
  have hpc : s.stopPc.joinsLeft (Pool.threads size).length ≤ (Pool.threads size).length + 1 := by
    cases s.stopPc with
    | joining k => exact Nat.succ_le_succ (Nat.sub_le _ _)
    | notCalled | resetting | stopping | returned => exact Nat.zero_le _
  have hthread : ∀ u : Nat, s.threadLeft u ≤ 3 := by
    intro u
    have hhandler : Pool.handlerLeft (s.running u) ≤ 2 := by
      cases s.running u with
      | none => exact Nat.zero_le 2
      | some r =>
        obtain ⟨c, done⟩ := r
        cases done <;> simp [Pool.handlerLeft]
    unfold threadLeft
    split <;> omega
  have hsum := Finset.sum_le_card_nsmul Finset.univ
    (fun u : Fin (Pool.threads size).length => s.threadLeft u) 3 fun u _ => hthread u
  rw [Finset.card_univ, Fintype.card_fin, Nat.nsmul_eq_mul] at hsum
  have hlen := Pool.length_threads size
  unfold remaining
  omega

variable [DecidableEq ι]

/-- A step of the pool is one the stops permit, and leaves the call where it is. -/
theorem pool_cases {a : PoolAction ι} (h : s.step size (.pool a) = some t) :
    s.Permits size a ∧ Pool.step size s.toPool a = some t.toPool ∧ t.stopPc = s.stopPc ∧
      t.stopped = s.stopped ∧ t.left = s.left := by
  obtain ⟨hp, h⟩ := Option.ite_none_right_eq_some.mp h
  obtain ⟨u, hu, rfl⟩ := Option.map_eq_some_iff.mp h
  exact ⟨hp, hu, rfl, rfl, rfl⟩

/-- A step of the pool keeps the order. -/
theorem Orderly.pool {a : PoolAction ι} (h : s.Orderly size)
    (hs : s.step size (.pool a) = some t) : t.Orderly size := by
  obtain ⟨hpermits, hpool, hpc, hstopped, hleft⟩ := pool_cases hs
  refine ⟨h.seated.step hpool, fun u hu => ?_, hpc ▸ hstopped ▸ h.stops, hpc ▸ hleft ▸ h.joined⟩
  rw [hleft] at hu
  have hnone := h.idle u hu
  rcases Pool.running_of_step hpool with ⟨_, hsame, _⟩ | ⟨v, k, rfl⟩ | ⟨v, c, _, hv, hrun⟩ |
      ⟨v, c, _, hv, hrun⟩
  · rw [hsame, hnone]
  · obtain ⟨c, m, _, _, _, ht⟩ := Pool.take_cases hpool
    have hne : u ≠ v := by
      rintro rfl
      exact hpermits.1 hu
    rw [ht]
    exact (Function.update_of_ne hne _ _).trans hnone
  all_goals
    have hne : u ≠ v := by
      rintro rfl
      rw [hnone] at hv
      contradiction
    rw [hrun]
    exact (Function.update_of_ne hne _ _).trans hnone

/-- A first call begins with the services, and one behind a finished call does nothing. -/
theorem call_cases (h : s.step size .call = some t) :
    s.stopPc = .notCalled ∧ t = { s with stopPc := .resetting 0 } ∨
      s.stopPc = .returned ∧ t = s := by
  cases hpc : s.stopPc with
  | notCalled =>
    simp only [step, hpc, Option.some.injEq] at h
    exact Or.inl ⟨rfl, h.symm⟩
  | returned =>
    simp only [step, hpc, Option.some.injEq] at h
    exact Or.inr ⟨rfl, h.symm⟩
  | resetting k | stopping k | joining k => simp only [step, hpc, reduceCtorEq] at h

/-- Every step keeps the order. -/
theorem Orderly.step {a : PoolStopAction ι} (h : s.Orderly size)
    (hs : s.step size a = some t) : t.Orderly size := by
  cases a with
  | pool a => exact h.pool hs
  | call =>
    rcases call_cases hs with ⟨_, rfl⟩ | ⟨_, rfl⟩
    · exact ⟨h.seated, h.idle, fun _ _ hm => hm.elim, fun _ _ hu => hu.elim⟩
    · exact h
  | next => exact h.next hs
  | leave u => exact h.leave hs

/-- The order holds in every reachable state. -/
theorem orderly_of_run {as : List (PoolStopAction ι)} (h : run (step size) init as = some s) :
    s.Orderly size :=
  run_invariant (orderly_init size) (fun _ _ _ hs ht => hs.step ht) h

/-- No thread takes a handler once threads are being joined. -/
theorem Orderly.not_take (h : s.Orderly size) (hjoining : s.stopPc.Joining) {u k : Nat} :
    s.step size (.pool (.take u k)) = none := by
  refine Option.eq_none_iff_forall_ne_some.mpr fun t hs => ?_
  obtain ⟨hpermits, hpool, _⟩ := pool_cases hs
  obtain ⟨c, m, _, hm, hservice, _⟩ := Pool.take_cases hpool
  exact hpermits.2 m hm
    (h.stops m (h.seated.service _ m hservice) (StopPc.stops_of_joining hjoining m))

/-- Where every service is stopped, the steps of `stop` and the threads use up what is left,
and the others leave it as it is. -/
theorem Orderly.remaining_step {a : PoolStopAction ι} (h : s.Orderly size)
    (hjoining : s.stopPc.Joining) (hs : s.step size a = some t) :
    t.stopPc.Joining ∧ t.remaining size + (if a.own then 1 else 0) ≤ s.remaining size := by
  cases a with
  | pool a =>
    obtain ⟨_, hpool, hpc, _, hleft⟩ := pool_cases hs
    refine ⟨hpc ▸ hjoining, ?_⟩
    rcases Pool.running_of_step hpool with ⟨hout, hsame, _⟩ | ⟨v, k, rfl⟩ | ⟨v, c, rfl, hv, hrun⟩ |
        ⟨v, c, rfl, hv, hrun⟩
    · have hown : PoolStopAction.own (.pool a) = false := by
        cases a with
        | construct | start | send | complete => rfl
        | take | body | finish => exact absurd trivial hout
      have heq : t.remaining size = s.remaining size := by
        simp only [remaining, threadLeft, hpc, hleft, hsame]
      rw [hown, heq]
      exact Nat.le_refl _
    · rw [h.not_take hjoining] at hs
      contradiction
    all_goals
      obtain ⟨k, hk, _⟩ := h.seated.running v _ hv
      have hu : v < (Pool.threads size).length := (List.getElem?_eq_some_iff.mp hk).1
      obtain ⟨hlt, hother⟩ := threadLeft_of_update hleft hrun (by simp [hv, Pool.handlerLeft])
      exact remaining_lt_of_thread hu hpc hlt hother
  | call =>
    rcases call_cases hs with ⟨hpc, _⟩ | ⟨_, rfl⟩
    · rw [hpc] at hjoining
      exact hjoining.elim
    · exact ⟨hjoining, Nat.le_refl _⟩
  | next =>
    cases nextStep_of_next hs with
    | reset k hpc hk | resetAll k hpc hk | stop k hpc hk | stopAll k hpc hk =>
      rw [hpc] at hjoining
      exact hjoining.elim
    | join k hpc hk hleft =>
      refine ⟨trivial, ?_⟩
      simp only [remaining, threadLeft, hpc, StopPc.joinsLeft, PoolStopAction.own, if_true]
      omega
    | joinAll k hpc hk =>
      refine ⟨trivial, ?_⟩
      simp only [remaining, threadLeft, hpc, StopPc.joinsLeft, PoolStopAction.own, if_true]
      omega
  | leave u =>
    obtain ⟨m, hm, hin, hidle, rfl⟩ := leave_cases hs
    refine ⟨hjoining, remaining_lt_of_thread (List.getElem?_eq_some_iff.mp hm).1 rfl ?_ ?_⟩
    · simp [threadLeft, hin]
    · intro v hv
      simp [threadLeft, hv]

/-- The steps `stop` has taken say where it stands. -/
theorem taken_of_run {as : List (PoolStopAction ι)} (h : run (step size) init as = some s) :
    as.countP PoolStopAction.ofStop ≤ 4 * size + 3 := by
  have htaken : as.countP PoolStopAction.ofStop =
      s.stopPc.taken size (Pool.threads size).length ∧
        s.stopPc.Within size (Pool.threads size).length := by
    refine run_history (P := fun as s => as.countP PoolStopAction.ofStop =
      s.stopPc.taken size (Pool.threads size).length ∧
        s.stopPc.Within size (Pool.threads size).length) ⟨rfl, trivial⟩ ?_ h
    rintro as s a t ⟨hcount, hwithin⟩ hs
    rw [List.countP_append, hcount, List.countP_singleton]
    cases a with
    | pool a =>
      obtain ⟨_, _, hpc, _⟩ := pool_cases hs
      rw [hpc]
      exact ⟨rfl, hwithin⟩
    | call =>
      rcases call_cases hs with ⟨hpc, rfl⟩ | ⟨_, rfl⟩
      · rw [hpc]
        exact ⟨rfl, Nat.zero_le size⟩
      · exact ⟨rfl, hwithin⟩
    | next =>
      cases nextStep_of_next hs with
      | reset k hpc hk | resetAll k hpc hk | stop k hpc hk | stopAll k hpc hk | join k hpc hk
      | joinAll k hpc hk =>
        rw [hpc] at hwithin ⊢
        refine ⟨?_, ?_⟩ <;>
          simp only [StopPc.taken, StopPc.Within, PoolStopAction.ofStop, if_true] at hwithin ⊢ <;>
          omega
    | leave u =>
      obtain ⟨m, _, _, _, rfl⟩ := leave_cases hs
      exact ⟨rfl, hwithin⟩
  have hlen := Pool.length_threads size
  obtain ⟨hcount, hwithin⟩ := htaken
  rw [hcount]
  cases hpc : s.stopPc with
  | notCalled | resetting k | stopping k | joining k | returned =>
    rw [hpc] at hwithin
    simp only [StopPc.taken, StopPc.Within] at hwithin ⊢
    omega

/-- A thread that has not left a stopped service has a step. -/
theorem Orderly.exists_thread_step (h : s.Orderly size) (hjoining : s.stopPc.Joining) {u : Nat}
    (hu : u < (Pool.threads size).length) (hin : u ∉ s.left) :
    ∃ a : PoolStopAction ι, a.own = true ∧ s.step size a ≠ none := by
  cases hrun : s.running u with
  | none =>
    have hm : (Pool.threads size)[u]? = some (Pool.threads size)[u] := List.getElem?_eq_getElem hu
    have hstopped := h.stops _ (Pool.threads_getElem?.mp hm).1 (StopPc.stops_of_joining hjoining _)
    refine ⟨.leave u, rfl, ?_⟩
    rw [PoolStop.step, PoolStop.leave, hm, Option.bind_some, if_pos ⟨hin, hrun, Or.inl hstopped⟩]
    exact Option.some_ne_none _
  | some r =>
    obtain ⟨c, done⟩ := r
    obtain ⟨k, _, hservice⟩ := h.seated.running u _ hrun
    obtain ⟨x, hx, _⟩ := Option.map_eq_some_iff.mp hservice
    cases done with
    | false =>
      refine ⟨.pool (.body u), rfl, ?_⟩
      simp [PoolStop.step, Permits, Pool.step, hrun, hx]
    | true =>
      refine ⟨.pool (.finish u), rfl, ?_⟩
      simp [PoolStop.step, Permits, Pool.step, hrun]

/-- From its call to its return `stop` or a thread has a step. -/
theorem Orderly.exists_step (h : s.Orderly size) (hcalled : s.stopPc ≠ .notCalled)
    (hreturned : s.stopPc ≠ .returned) :
    ∃ a : PoolStopAction ι, a.own = true ∧ s.step size a ≠ none := by
  have hnext : s.next size ≠ none → ∃ a : PoolStopAction ι, a.own = true ∧ s.step size a ≠ none :=
    fun hs => ⟨.next, rfl, hs⟩
  cases hpc : s.stopPc with
  | notCalled => exact absurd hpc hcalled
  | returned => exact absurd hpc hreturned
  | resetting k | stopping k => exact hnext (by simp [PoolStop.next, hpc])
  | joining k =>
    by_cases hk : k < (Pool.threads size).length
    · by_cases hleft : k ∈ s.left
      · exact hnext (by simp [PoolStop.next, hpc, hleft, hk])
      · exact h.exists_thread_step (by rw [hpc]; trivial) hk hleft
    · exact hnext (by simp [PoolStop.next, hpc, hk])

omit [DecidableEq ι] in
/-- Where `stop` has returned, no thread executes a handler. -/
theorem Orderly.running_of_returned (h : s.Orderly size) (hpc : s.stopPc = .returned) (u : Nat) :
    s.running u = none := by
  cases hrun : s.running u with
  | none => rfl
  | some r =>
    obtain ⟨k, hk, _⟩ := h.seated.running u r hrun
    have hu := (List.getElem?_eq_some_iff.mp hk).1
    rw [← h.idle u (h.joined u hu (by rw [hpc]; trivial)), hrun]

/-- Behind the return of `stop` neither it nor a thread has a step. -/
theorem Orderly.returned_step {a : PoolStopAction ι} (h : s.Orderly size)
    (hpc : s.stopPc = .returned) (hs : s.step size a = some t) :
    a.own = false ∧ t.stopPc = .returned ∧ s.ready <+: t.ready := by
  have hrun := h.running_of_returned hpc
  cases a with
  | pool a =>
    obtain ⟨_, hpool, hpc', _⟩ := pool_cases hs
    rcases Pool.running_of_step hpool with ⟨hout, _, hready⟩ | ⟨v, k, rfl⟩ | ⟨v, c, _, hv, _⟩ |
        ⟨v, c, _, hv, _⟩
    · refine ⟨?_, hpc'.trans hpc, hready⟩
      cases a with
      | construct | start | send | complete => rfl
      | take | body | finish => exact absurd trivial hout
    · rw [h.not_take (by rw [hpc]; trivial)] at hs
      contradiction
    all_goals
      rw [hrun v] at hv
      contradiction
  | call =>
    rcases call_cases hs with ⟨hnone, _⟩ | ⟨_, rfl⟩
    · rw [hpc] at hnone
      contradiction
    · exact ⟨rfl, hpc, List.prefix_rfl⟩
  | next =>
    simp only [PoolStop.step, PoolStop.next, hpc, reduceCtorEq] at hs
  | leave u =>
    obtain ⟨m, hm, hin, _⟩ := leave_cases hs
    exact absurd (h.joined u (List.getElem?_eq_some_iff.mp hm).1 (by rw [hpc]; trivial)) hin

/-- `stop` returns. In every run it takes `4 * size + 3` steps of its own at most, and from its
call to its return it has a step left or a thread has. Once every service is stopped, no thread
takes a handler any more, and in every order at most `8 * size + 1` steps of `stop` and the
threads remain, whatever completes or is sent meanwhile. Behind its return no thread executes
a handler, in any run, and the handlers that were ready are ready for ever. -/
theorem stop_returns (size : Nat) (as : List (PoolStopAction ι)) (s : PoolStop ι)
    (h : run (step size) init as = some s) :
    as.countP PoolStopAction.ofStop ≤ 4 * size + 3 ∧
      (s.stopPc ≠ .notCalled → s.stopPc ≠ .returned →
        ∃ a : PoolStopAction ι, a.own = true ∧ s.step size a ≠ none) ∧
      (s.stopPc.Joining → ∀ bs t, run (step size) s bs = some t →
        (∀ u k, .pool (.take u k) ∉ bs) ∧ bs.countP PoolStopAction.own ≤ 8 * size + 1) ∧
      (s.stopPc = .returned → ∀ bs t, run (step size) s bs = some t → t.stopPc = .returned ∧
        (∀ u, t.running u = none) ∧ s.ready <+: t.ready ∧ ∀ a ∈ bs, a.own = false) := by
  have horderly := orderly_of_run h
  refine ⟨taken_of_run h, horderly.exists_step, fun hjoining bs t hbs => ?_,
    fun hpc bs t hbs => ?_⟩
  · have hrun : t.Orderly size ∧ t.stopPc.Joining ∧ (∀ u k, .pool (.take u k) ∉ bs) ∧
        t.remaining size + bs.countP PoolStopAction.own ≤ s.remaining size := by
      refine run_history (P := fun bs t => t.Orderly size ∧ t.stopPc.Joining ∧
        (∀ u k, .pool (.take u k) ∉ bs) ∧
        t.remaining size + bs.countP PoolStopAction.own ≤ s.remaining size)
        ⟨horderly, hjoining, fun _ _ => List.not_mem_nil, Nat.le_refl _⟩ ?_ hbs
      rintro bs u a v ⟨hu, hujoining, hnone, hle⟩ huv
      obtain ⟨hvjoining, hlt⟩ := hu.remaining_step hujoining huv
      refine ⟨hu.step huv, hvjoining, fun w k hmem => ?_, ?_⟩
      · rcases List.mem_append.mp hmem with hmem | hmem
        · exact hnone w k hmem
        · obtain rfl := List.mem_singleton.mp hmem
          rw [hu.not_take hujoining] at huv
          contradiction
      · rw [List.countP_append, List.countP_singleton]
        omega
    exact ⟨hrun.2.2.1, (Nat.le_add_left _ _).trans (hrun.2.2.2.trans (remaining_le size s))⟩
  · have hrun : t.Orderly size ∧ t.stopPc = .returned ∧ s.ready <+: t.ready ∧
        ∀ a ∈ bs, a.own = false := by
      refine run_history (P := fun bs t => t.Orderly size ∧ t.stopPc = .returned ∧
        s.ready <+: t.ready ∧ ∀ a ∈ bs, a.own = false)
        ⟨horderly, hpc, List.prefix_rfl, fun _ ha => absurd ha List.not_mem_nil⟩ ?_ hbs
      rintro bs u a v ⟨hu, hupc, hready, hall⟩ huv
      obtain ⟨hown, hvpc, hready'⟩ := hu.returned_step hupc huv
      refine ⟨hu.step huv, hvpc, hready.trans hready', fun b hb => ?_⟩
      rcases List.mem_append.mp hb with hb | hb
      · exact hall b hb
      · rw [List.mem_singleton.mp hb]
        exact hown
    exact ⟨hrun.2.1, hrun.1.running_of_returned hrun.2.1, hrun.2.2⟩

/-- A session with a handler being executed while `stop` stops the only service. -/
private def stopMeanwhile : List (PoolStopAction Nat) :=
  [.pool (.construct 7), .pool (.start 7), .pool (.complete 7 .read true), .pool (.take 1 0),
    .call, .next, .next, .next, .next]

/-- The handler ends, its next read completes, and both threads leave. -/
private def stopReturns : List (PoolStopAction Nat) :=
  [.leave 0, .pool (.body 1), .next, .pool (.complete 7 .read true), .pool (.finish 1), .leave 1,
    .next, .next]

/-- The call returns from a pool with a handler running, and one handler is left ready. -/
theorem stop_returns_meanwhile :
    ∃ s t, run (step 1) init stopMeanwhile = some s ∧ s.stopPc = .joining 0 ∧
      run (step 1) s stopReturns = some t ∧ stopReturns.countP PoolStopAction.own ≤ 9 ∧
      (∀ u, t.running u = none) ∧ t.ready.length = 1 := by
  have hrun : (run (step 1) init stopMeanwhile).any fun s => s.stopPc = .joining 0 ∧
      (run (step 1) s stopReturns).any fun t => t.stopPc = .returned ∧ t.ready.length = 1 := by
    decide +kernel
  obtain ⟨s, hs, hlast⟩ := (Option.any_eq_true _ _).mp hrun
  obtain ⟨hjoining, hafter⟩ := of_decide_eq_true hlast
  obtain ⟨t, ht, hend⟩ := (Option.any_eq_true _ _).mp hafter
  obtain ⟨hreturned, hready⟩ := of_decide_eq_true hend
  have hcount := ((stop_returns 1 stopMeanwhile s hs).2.2.1 (by rw [hjoining]; trivial)
    stopReturns t ht).2
  have hboth := run_append_eq_some.mpr ⟨s, hs, ht⟩
  obtain ⟨_, hnone, _⟩ := (stop_returns 1 _ t hboth).2.2.2 hreturned [] t rfl
  exact ⟨s, t, hs, hjoining, ht, hcount, hnone, hready⟩

end PoolStop

end ResourceServer
