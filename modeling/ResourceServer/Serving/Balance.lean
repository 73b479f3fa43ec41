import Mathlib.Data.Int.CardIntervalMod
import ResourceServer.Serving.Handlers

/-!
# Sessions in turn on the services

`get_service` deals the sessions out: the next one to the next service, and the first
service again behind the last. Whatever the handlers do meanwhile, every session stays
where it was put, so the services have the same number of sessions up to one, and each
session's handlers are executed by the two threads of its service.
-/

namespace ResourceServer

open Transition

variable {ι : Type*}

/-- The sessions a schedule constructs. -/
def constructed (as : List (PoolAction ι)) : List ι :=
  as.filterMap fun
    | .construct i => some i
    | _ => none

/-- The sessions constructed with one more action. -/
theorem constructed_snoc (as : List (PoolAction ι)) (a : PoolAction ι) :
    constructed (as ++ [a]) = constructed as ++ constructed [a] := List.filterMap_append

namespace Pool

/-- `get_service` counts modulo the number of services. -/
theorem getService_mod (size n : Nat) : getService size (n % size) = (n + 1) % size := by
  have hsplit : (n + 1) % size = (n % size + 1) % size := (Nat.mod_add_mod n size 1).symm
  unfold getService
  split
  · rename_i hlast
    rw [hsplit, hlast, Nat.mod_self]
  · rename_i hmore
    rcases Nat.eq_zero_or_pos size with rfl | hpos
    · rw [Nat.mod_zero, Nat.mod_zero]
    · have hlt := Nat.mod_lt n hpos
      have hnext : n % size + 1 < size := by omega
      rw [hsplit, Nat.mod_eq_of_lt hnext]

/-- The sessions were put on the services in turn, and are there still. -/
structure Dealt (size : Nat) (is : List ι) (s : Pool ι) : Prop where
  next : s.nextService = is.length % size
  service : ∀ k i, is[k]? = some i → s.serviceOf i = some (k % size)
  mem : ∀ i k, s.serviceOf i = some k → i ∈ is

/-- Nothing is dealt before a session is constructed. -/
theorem dealt_init (size : Nat) : Dealt size [] (init : Pool ι) where
  next := (Nat.zero_mod size).symm
  service k i h := by simp at h
  mem i k h := by simp [init, serviceOf] at h

/-- What moves no session and hands out no service keeps the deal. -/
theorem Dealt.of_serviceOf {size : Nat} {is : List ι} {s t : Pool ι} (h : Dealt size is s)
    (hnext : t.nextService = s.nextService) (hservice : ∀ j, t.serviceOf j = s.serviceOf j) :
    Dealt size is t where
  next := hnext.trans h.next
  service k i hi := (hservice i).trans (h.service k i hi)
  mem i k hi := h.mem i k ((hservice i).symm.trans hi)

variable [DecidableEq ι]

/-- The next session goes to the next service. -/
theorem Dealt.construct {size : Nat} {is : List ι} {s t : Pool ι} (h : Dealt size is s) {i : ι}
    (hs : step size s (.construct i) = some t) : Dealt size (is ++ [i]) t := by
  obtain ⟨_, hnone, rfl⟩ := construct_cases hs
  have hservice : ∀ j, (s.setSession i (.new s.nextService)).serviceOf j =
      if j = i then some s.nextService else s.serviceOf j := by
    intro j
    rw [serviceOf_setSession]
    rfl
  refine ⟨?_, fun k j hj => (hservice j).trans ?_, fun j k hj => ?_⟩
  · change getService size s.nextService = _
    rw [h.next, getService_mod, List.length_append, List.length_singleton]
  · rcases Nat.lt_or_ge k is.length with hlt | hge
    · rw [List.getElem?_append_left hlt] at hj
      have hold := h.service k j hj
      have hne : j ≠ i := by
        rintro rfl
        simp [serviceOf, hnone] at hold
      rw [if_neg hne, hold]
    · rw [List.getElem?_append_right hge] at hj
      obtain ⟨hk, rfl⟩ := List.getElem?_eq_some_iff.mp hj
      have hlast : k = is.length := by simp at hk; omega
      simp [h.next, hlast]
  · have hj := (hservice j).symm.trans hj
    split at hj
    · rename_i hij
      exact List.mem_append_right _ (List.mem_singleton.mpr hij)
    · exact List.mem_append_left _ (h.mem j k hj)

/-- Every step keeps the deal, with the session it constructs at its end. -/
theorem Dealt.step {size : Nat} {is : List ι} {s t : Pool ι} {a : PoolAction ι}
    (h : Dealt size is s) (hs : step size s a = some t) : Dealt size (is ++ constructed [a]) t := by
  cases a with
  | construct i => exact h.construct hs
  | start i =>
    obtain ⟨x, hx, rfl⟩ := start_cases hs
    rw [show constructed [PoolAction.start i] = [] from rfl, List.append_nil]
    exact h.of_serviceOf rfl (serviceOf_setSession_of_eq hx rfl)
  | send i =>
    obtain ⟨x, hx, rfl⟩ := send_cases hs
    rw [show constructed [PoolAction.send i] = [] from rfl, List.append_nil]
    exact h.of_serviceOf rfl (serviceOf_setSession_of_eq hx (service_send x))
  | complete i op ok =>
    obtain ⟨x, hx, rfl⟩ := complete_cases hs
    rw [show constructed [PoolAction.complete i op ok] = [] from rfl, List.append_nil]
    exact h.of_serviceOf rfl (serviceOf_setSession_of_eq hx (service_completed x op))
  | take u k =>
    obtain ⟨_, _, _, _, _, rfl⟩ := take_cases hs
    rw [show constructed [(PoolAction.take u k : PoolAction ι)] = [] from rfl, List.append_nil]
    exact h.of_serviceOf rfl fun _ => rfl
  | body u =>
    obtain ⟨c, x, _, hx, rfl⟩ := body_cases hs
    rw [show constructed [(PoolAction.body u : PoolAction ι)] = [] from rfl, List.append_nil]
    exact h.of_serviceOf rfl (serviceOf_setSession_of_eq hx (service_handle x c.op c.ok))
  | finish u =>
    obtain rfl := finish_cases hs
    rw [show constructed [(PoolAction.finish u : PoolAction ι)] = [] from rfl, List.append_nil]
    exact h.of_serviceOf rfl fun _ => rfl

/-- The deal in every run. -/
theorem dealt_of_run {size : Nat} {as : List (PoolAction ι)} {s : Pool ι}
    (h : run (step size) init as = some s) : Dealt size (constructed as) s := by
  refine run_history (P := fun as s => Dealt size (constructed as) s) (dealt_init size) ?_ h
  intro as s a t hs ht
  rw [constructed_snoc]
  exact hs.step ht

omit [DecidableEq ι] in
/-- Of the sessions dealt, those on a service are as many as the turns that come to it. -/
theorem Dealt.length_filter {size : Nat} {is : List ι} {f : ι → Option Nat} (m : Nat)
    (h : ∀ k i, is[k]? = some i → f i = some (k % size)) :
    (is.filter fun i => f i = some m).length = Nat.count (fun k => k % size = m) is.length := by
  induction is using List.reverseRecOn with
  | nil => rfl
  | append_singleton is i ih =>
    have hinit : ∀ k j, is[k]? = some j → f j = some (k % size) := by
      intro k j hj
      refine h k j ?_
      rw [List.getElem?_append_left (List.getElem?_eq_some_iff.mp hj).1, hj]
    have hlast : f i = some (is.length % size) := h is.length i (by simp)
    rw [List.filter_append, List.length_append, ih hinit, List.length_append,
      List.length_singleton, Nat.count_succ]
    by_cases hm : is.length % size = m <;> simp [hlast, hm]

/-- The services are balanced. In every run of a pool with any number of services, the `k`-th
session constructed is on service `k` modulo that number and stays there; of `n` sessions each
service has the whole part of the quotient, and one more if the rest reaches it; and a handler
of the `k`-th session is executed by no thread but the two of its service. -/
theorem balanced (size : Nat) (as : List (PoolAction ι)) (s : Pool ι)
    (h : run (step size) init as = some s) :
    (∀ k i, (constructed as)[k]? = some i → s.serviceOf i = some (k % size)) ∧
      (∀ m < size, ((constructed as).filter fun i => s.serviceOf i = some m).length =
        (constructed as).length / size + if m < (constructed as).length % size then 1 else 0) ∧
      ∀ t r, s.running t = some r → ∃ k, (constructed as)[k]? = some r.1.session ∧
        (t = k % size ∨ t = size + k % size) := by
  have hdealt := dealt_of_run h
  refine ⟨hdealt.service, fun m hm => ?_, fun t r hr => ?_⟩
  · rw [Dealt.length_filter m hdealt.service]
    have hcount := Nat.count_modEq_card (constructed as).length (Nat.zero_lt_of_lt hm) m
    rw [Nat.mod_eq_of_lt hm] at hcount
    rw [← hcount]
    simp only [Nat.ModEq, Nat.mod_eq_of_lt hm]
  · obtain ⟨m, ht, hservice⟩ := (seated_of_run h).running t r hr
    obtain ⟨k, hk⟩ := List.mem_iff_getElem?.mp (hdealt.mem _ m hservice)
    obtain rfl := Option.some.inj (hservice.symm.trans (hdealt.service k _ hk))
    exact ⟨k, hk, (threads_getElem?.mp ht).2⟩

/-- Three sessions on two services, with a handler of the third on a thread of the first. -/
private def threeSessions : List (PoolAction Nat) :=
  [.construct 4, .start 4, .construct 5, .construct 6, .start 6, .complete 6 .read true,
    .take 2 0, .complete 4 .read false]

/-- Three sessions are dealt to two services in turn. -/
theorem balanced_three : ∃ s, run (step 2) init threeSessions = some s ∧
    ((constructed threeSessions).filter fun i => s.serviceOf i = some 0).length = 2 ∧
      ∀ t r, s.running t = some r → ∃ k, (constructed threeSessions)[k]? = some r.1.session ∧
        (t = k % 2 ∨ t = 2 + k % 2) := by
  have hrun : (run (step 2) init threeSessions).isSome := by decide +kernel
  obtain ⟨s, hs⟩ := Option.isSome_iff_exists.mp hrun
  obtain ⟨_, hcount, hthreads⟩ := balanced 2 threeSessions s hs
  exact ⟨s, hs, hcount 0 (by decide), hthreads⟩

end Pool

end ResourceServer
