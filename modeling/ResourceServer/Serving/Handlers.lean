import Mathlib.Data.List.Nodup
import ResourceServer.Native.Pool

/-!
# Handlers of one session on two threads

Every service has two threads, and nothing keeps the handlers of one session apart:
a read handler begins the next read before it returns, and reads and writes go on
side by side. A session whose operations complete only while none of its handlers is
ready or executed never has two of them executed at the same time; one operation
that completes earlier is enough for it.
-/

namespace ResourceServer

open Transition

variable {ι : Type*}

namespace Pool

/-- No two threads execute handlers of the same session. -/
def Exclusive (s : Pool ι) : Prop :=
  ∀ t t' r r', s.running t = some r → s.running t' = some r' → r.1.session = r'.1.session → t = t'

/-- No handler of session `i` is ready or executed. -/
def Unhandled (size : Nat) (s : Pool ι) (i : ι) : Prop :=
  (∀ c ∈ s.ready, c.session ≠ i) ∧
    ∀ t < (threads size).length, ∀ r ∈ s.running t, r.1.session ≠ i

instance [DecidableEq ι] (size : Nat) (s : Pool ι) (i : ι) : Decidable (s.Unhandled size i) :=
  inferInstanceAs (Decidable (_ ∧ _))

end Pool

/-- The side condition on steps: an operation of a session completes only while no handler
of that session is ready or executed. -/
def OneAtATime (size : Nat) (s : Pool ι) : PoolAction ι → Prop
  | .complete i _ _ => s.Unhandled size i
  | _ => True

instance [DecidableEq ι] (size : Nat) (s : Pool ι) (a : PoolAction ι) :
    Decidable (OneAtATime size s a) :=
  match a with
  | .complete i _ _ => inferInstanceAs (Decidable (s.Unhandled size i))
  | .construct _ | .start _ | .send _ | .take _ _ | .body _ | .finish _ => isTrue trivial

namespace Pool

/-- The first loop of the constructor gives service `k` a thread, and so does the second. -/
theorem threads_getElem? {size t k : Nat} :
    (threads size)[t]? = some k ↔ k < size ∧ (t = k ∨ t = size + k) := by
  unfold threads
  by_cases ht : t < size
  · rw [List.getElem?_append_left (by simpa using ht)]
    simp only [List.getElem?_range ht, Option.some.injEq]
    omega
  · rw [List.getElem?_append_right (by simpa using Nat.not_lt.mp ht), List.length_range]
    by_cases ht' : t - size < size
    · simp only [List.getElem?_range ht', Option.some.injEq]
      omega
    · rw [List.getElem?_eq_none (by simpa using Nat.not_lt.mp ht')]
      simp only [reduceCtorEq, false_iff]
      omega

@[simp] theorem service_completed (x : PoolSession) (op : SessionOp) :
    (x.completed op).service = x.service := by
  cases op <;> rfl

@[simp] theorem service_send (x : PoolSession) : x.send.service = x.service := by
  unfold PoolSession.send
  split <;> rfl

@[simp] theorem service_handle (x : PoolSession) (op : SessionOp) (ok : Bool) :
    (x.handle op ok).service = x.service := by
  cases ok <;> cases op <;> rfl

/-- What holds while no session has two handlers: those that are ready belong to different
sessions, and to others than those executed. -/
structure Solo (s : Pool ι) : Prop where
  ready : (s.ready.map Completion.session).Nodup
  apart : ∀ t r, s.running t = some r → r.1.session ∉ s.ready.map Completion.session
  exclusive : s.Exclusive

/-- Nothing runs at first. -/
theorem solo_init : Solo (init : Pool ι) where
  ready := by simp [init]
  apart t r h := by simp [init] at h
  exclusive t t' r r' h := by simp [init] at h

/-- Setting what a thread runs changes that thread only. -/
theorem running_setRunning (s : Pool ι) (t t' : Nat) (r : Option (Completion ι × Bool)) :
    (s.setRunning t r).running t' = if t' = t then r else s.running t' := by
  unfold setRunning
  by_cases ht : t' = t
  · subst ht
    simp
  · simp [ht]

/-- Sessions stay on their contexts, and threads on theirs. -/
structure Seated (size : Nat) (s : Pool ι) : Prop where
  service : ∀ i k, s.serviceOf i = some k → k < size
  ready : ∀ c ∈ s.ready, ∃ k, s.serviceOf c.session = some k
  running : ∀ t r, s.running t = some r →
    ∃ k, (threads size)[t]? = some k ∧ s.serviceOf r.1.session = some k

/-- No thread of a new pool runs anything. -/
theorem seated_init (size : Nat) : Seated size (init : Pool ι) where
  service i k h := by simp [init, serviceOf] at h
  ready c h := by simp [init] at h
  running t r h := by simp [init] at h

/-- The context of a session does not change with the handlers. -/
theorem Seated.of_serviceOf {size : Nat} {s t : Pool ι} (h : Seated size s)
    (hservice : ∀ j, t.serviceOf j = s.serviceOf j)
    (hready : ∀ c ∈ t.ready, ∃ k, s.serviceOf c.session = some k)
    (hrunning : ∀ u r, t.running u = some r →
      ∃ k, (threads size)[u]? = some k ∧ s.serviceOf r.1.session = some k) : Seated size t where
  service i k hi := h.service i k (hservice i ▸ hi)
  ready c hc := by
    rw [hservice]
    exact hready c hc
  running u r hr := by
    rw [hservice]
    exact hrunning u r hr

/-- A thread executes at most what it executed before. -/
theorem Solo.of_running {s t : Pool ι} (h : Solo s) (hready : t.ready = s.ready)
    (hrunning : ∀ u r, t.running u = some r → ∃ r', s.running u = some r' ∧
      r'.1.session = r.1.session) : Solo t where
  ready := hready ▸ h.ready
  apart u r hr := by
    obtain ⟨r', hr', hsession⟩ := hrunning u r hr
    rw [hready, ← hsession]
    exact h.apart u r' hr'
  exclusive u v r q hr hq hsession := by
    obtain ⟨r', hr', hrs⟩ := hrunning u r hr
    obtain ⟨q', hq', hqs⟩ := hrunning v q hq
    exact h.exclusive u v r' q' hr' hq' (by rw [hrs, hqs, hsession])

/-- A thread takes the only handler of its session. -/
theorem Solo.take {s : Pool ι} (h : Solo s) {u k : Nat} {c : Completion ι}
    (hc : s.ready[k]? = some c) : Solo { s.setRunning u (some (c, false)) with
      ready := s.ready.eraseIdx k } := by
  obtain ⟨hk, hkc⟩ := List.getElem?_eq_some_iff.mp hc
  have hperm : (c :: s.ready.eraseIdx k).Perm s.ready := hkc ▸ List.getElem_cons_eraseIdx_perm hk
  have hnodup := (hperm.map Completion.session).nodup_iff.mpr h.ready
  rw [List.map_cons, List.nodup_cons] at hnodup
  have hmem : c.session ∈ s.ready.map Completion.session :=
    List.mem_map_of_mem (hperm.subset List.mem_cons_self)
  have hsub : ∀ i, i ∉ s.ready.map Completion.session →
      i ∉ (s.ready.eraseIdx k).map Completion.session := by
    intro i hi hmem'
    exact hi ((hperm.map Completion.session).subset (List.mem_cons_of_mem _ hmem'))
  refine ⟨hnodup.2, fun v r hr => ?_, fun v w r q hr hq hsession => ?_⟩
  · simp only [running_setRunning] at hr
    split at hr
    · cases hr
      exact hnodup.1
    · exact hsub _ (h.apart v r hr)
  · simp only [running_setRunning] at hr hq
    split at hr <;> split at hq
    · rename_i hv hw
      rw [hv, hw]
    · cases hr
      rw [hsession] at hmem
      exact absurd hmem (h.apart w q hq)
    · cases hq
      rw [← hsession] at hmem
      exact absurd hmem (h.apart v r hr)
    · exact h.exclusive v w r q hr hq hsession

variable [DecidableEq ι]

/-- Setting a session changes the service of that session only. -/
theorem serviceOf_setSession (s : Pool ι) (i j : ι) (x : PoolSession) :
    (s.setSession i x).serviceOf j = if j = i then some x.service else s.serviceOf j := by
  unfold serviceOf setSession
  by_cases hj : j = i
  · subst hj
    simp
  · simp [hj]

/-- A session that changes stays on its context. -/
theorem serviceOf_setSession_of_eq {s : Pool ι} {i : ι} {x y : PoolSession}
    (hx : s.sessions i = some x) (hy : y.service = x.service) (j : ι) :
    (s.setSession i y).serviceOf j = s.serviceOf j := by
  rw [serviceOf_setSession]
  split
  · rename_i hj
    rw [hj, serviceOf, hx, hy, Option.map_some]
  · rfl

/-- Every step leaves sessions and threads in their places. -/
theorem Seated.step {size : Nat} {s t : Pool ι} {a : PoolAction ι} (h : Seated size s)
    (hs : step size s a = some t) : Seated size t := by
  cases a with
  | construct i =>
    obtain ⟨hnext, hnone, rfl⟩ := construct_cases hs
    have hservice : ∀ j, (s.setSession i (.new s.nextService)).serviceOf j =
        if j = i then some s.nextService else s.serviceOf j := by
      intro j
      rw [serviceOf_setSession]
      rfl
    have hne : ∀ j k, s.serviceOf j = some k → j ≠ i := by
      rintro j k hj rfl
      simp [serviceOf, hnone] at hj
    refine ⟨fun j k hj => ?_, fun c hc => ?_, fun u r hr => ?_⟩
    · have hj := (hservice j).symm.trans hj
      split at hj
      · cases hj
        exact hnext
      · exact h.service j k hj
    · obtain ⟨k, hk⟩ := h.ready c hc
      exact ⟨k, (hservice c.session).trans ((if_neg (hne _ k hk)).trans hk)⟩
    · obtain ⟨k, hu, hk⟩ := h.running u r hr
      exact ⟨k, hu, (hservice r.1.session).trans ((if_neg (hne _ k hk)).trans hk)⟩
  | start i =>
    obtain ⟨x, hx, rfl⟩ := start_cases hs
    exact h.of_serviceOf (serviceOf_setSession_of_eq hx rfl) h.ready h.running
  | send i =>
    obtain ⟨x, hx, rfl⟩ := send_cases hs
    exact h.of_serviceOf (serviceOf_setSession_of_eq hx (service_send x)) h.ready h.running
  | complete i op ok =>
    obtain ⟨x, hx, rfl⟩ := complete_cases hs
    refine h.of_serviceOf (serviceOf_setSession_of_eq hx (service_completed x op)) ?_ h.running
    intro c hc
    rcases List.mem_append.mp hc with hc | hc
    · exact h.ready c hc
    · rw [List.mem_singleton.mp hc]
      exact ⟨x.service, by simp [serviceOf, hx]⟩
  | take u k =>
    obtain ⟨c, m, hc, hm, hservice, rfl⟩ := take_cases hs
    refine h.of_serviceOf (fun _ => rfl) (fun d hd => ?_) (fun v r hr => ?_)
    · exact h.ready d (List.mem_of_mem_eraseIdx hd)
    · simp only [running_setRunning] at hr
      split at hr
      · rename_i hv
        cases hr
        exact ⟨m, hv ▸ hm, hservice⟩
      · exact h.running v r hr
  | body u =>
    obtain ⟨c, x, hc, hx, rfl⟩ := body_cases hs
    refine h.of_serviceOf (serviceOf_setSession_of_eq hx (service_handle x c.op c.ok)) h.ready ?_
    intro v r hr
    rw [running_setRunning] at hr
    split at hr
    · rename_i hv
      cases hr
      rw [hv]
      exact h.running u (c, false) hc
    · exact h.running v r hr
  | finish u =>
    obtain rfl := finish_cases hs
    refine h.of_serviceOf (fun _ => rfl) h.ready fun v r hr => ?_
    rw [running_setRunning] at hr
    split at hr
    · contradiction
    · exact h.running v r hr

/-- The places of sessions and threads in every run. -/
theorem seated_of_run {size : Nat} {as : List (PoolAction ι)} {s : Pool ι}
    (h : run (step size) init as = some s) : Seated size s :=
  run_invariant (seated_init size) (fun _ _ _ hs ht => hs.step ht) h

/-- An operation completes while no handler of its session is there. -/
theorem Solo.complete {size : Nat} {s : Pool ι} (h : Solo s) (hp : Seated size s) {i : ι}
    (hi : s.Unhandled size i) (op : SessionOp) (ok : Bool) (x : PoolSession) :
    Solo { s.setSession i x with ready := s.ready ++ [⟨i, op, ok⟩] } := by
  have hready : i ∉ s.ready.map Completion.session := by
    intro hmem
    obtain ⟨c, hc, hci⟩ := List.mem_map.mp hmem
    exact hi.1 c hc hci
  refine ⟨?_, fun u r hr hmem => ?_, h.exclusive⟩
  · simp only [List.map_append, List.map_cons, List.map_nil]
    rw [← List.concat_eq_append]
    exact h.ready.concat hready
  · simp only [List.map_append, List.map_cons, List.map_nil, List.mem_append,
      List.mem_singleton] at hmem
    rcases hmem with hmem | hri
    · exact h.apart u r hr hmem
    · obtain ⟨k, hu, _⟩ := hp.running u r hr
      exact hi.2 u (List.getElem?_eq_some_iff.mp hu).1 r hr hri

/-- Every step that meets the condition leaves a session one handler at most. -/
theorem Solo.step {size : Nat} {s t : Pool ι} {a : PoolAction ι} (h : Solo s) (hp : Seated size s)
    (hok : OneAtATime size s a) (hs : step size s a = some t) : Solo t := by
  cases a with
  | construct i =>
    obtain ⟨_, _, rfl⟩ := construct_cases hs
    exact ⟨h.ready, h.apart, h.exclusive⟩
  | start i =>
    obtain ⟨x, _, rfl⟩ := start_cases hs
    exact ⟨h.ready, h.apart, h.exclusive⟩
  | send i =>
    obtain ⟨x, _, rfl⟩ := send_cases hs
    exact ⟨h.ready, h.apart, h.exclusive⟩
  | complete i op ok =>
    obtain ⟨x, _, rfl⟩ := complete_cases hs
    exact h.complete hp hok op ok _
  | take u k =>
    obtain ⟨c, _, hc, _, _, rfl⟩ := take_cases hs
    exact h.take hc
  | body u =>
    obtain ⟨c, x, hc, _, rfl⟩ := body_cases hs
    refine h.of_running rfl fun v r hr => ?_
    rw [running_setRunning] at hr
    split at hr
    · rename_i hv
      cases hr
      exact ⟨(c, false), hv ▸ hc, rfl⟩
    · exact ⟨r, hr, rfl⟩
  | finish u =>
    obtain rfl := finish_cases hs
    refine h.of_running rfl fun v r hr => ?_
    rw [running_setRunning] at hr
    split at hr
    · contradiction
    · exact ⟨r, hr, rfl⟩

/-- A run that completes one operation at a time has one handler at a time. -/
theorem solo_of_run {size : Nat} {as : List (PoolAction ι)} {s : Pool ι}
    (hok : Along (step size) (OneAtATime size) init as)
    (h : run (step size) init as = some s) : Solo s := by
  have hboth : Seated size s ∧ Solo s := by
    refine run_invariant_along (P := fun s => Seated size s ∧ Solo s)
      ⟨seated_init size, solo_init⟩ ?_ hok h
    intro s a t hs ha ht
    exact ⟨hs.1.step ht, hs.2.step hs.1 ha ht⟩
  exact hboth.2

/-- A thread comes to the end of its handler and leaves everything else to the others. -/
theorem exists_free {size : Nat} {s : Pool ι} (hp : Seated size s) (u : Nat) :
    ∃ cs t, (∀ a ∈ cs, a.OnThread) ∧ run (step size) s cs = some t ∧ t.running u = none ∧
      t.ready = s.ready ∧ (∀ v ≠ u, t.running v = s.running v) ∧
      ∀ j, t.serviceOf j = s.serviceOf j := by
  have hfinish : ∀ v : Pool ι, ∀ c, v.running u = some (c, true) →
      v.step size (.finish u) = some (v.setRunning u none) := by
    intro v c hc
    simp only [Pool.step, hc]
  cases hr : s.running u with
  | none => exact ⟨[], s, by simp, rfl, hr, rfl, fun _ _ => rfl, fun _ => rfl⟩
  | some r =>
    obtain ⟨c, done⟩ := r
    cases done with
    | true =>
      refine ⟨[.finish u], s.setRunning u none, ?_, ?_, ?_, rfl, ?_, fun _ => rfl⟩
      · simp [PoolAction.OnThread]
      · simp [run_cons, hfinish s c hr]
      · simp [running_setRunning]
      · intro v hv
        rw [running_setRunning, if_neg hv]
    | false =>
      obtain ⟨k, _, hk⟩ := hp.running u _ hr
      obtain ⟨x, hx, _⟩ := Option.map_eq_some_iff.mp hk
      let t := (s.setSession c.session (x.handle c.op c.ok)).setRunning u (some (c, true))
      have ht : s.step size (.body u) = some t := by
        simp only [Pool.step, hr, hx, Option.map_some, t]
      have hrunning : t.running u = some (c, true) := by
        simp [t, running_setRunning]
      refine ⟨[.body u, .finish u], t.setRunning u none, ?_, ?_, ?_, rfl, ?_,
        serviceOf_setSession_of_eq hx (service_handle x c.op c.ok)⟩
      · simp [PoolAction.OnThread]
      · simp [run_cons, ht, hfinish t c hrunning]
      · simp [running_setRunning]
      · intro v hv
        rw [running_setRunning, if_neg hv, running_setRunning, if_neg hv]
        rfl

/-- A free thread takes any handler of its service. -/
theorem step_take {size : Nat} {s : Pool ι} {u k m : Nat} {c : Completion ι}
    (hc : s.ready[k]? = some c) (hu : (threads size)[u]? = some m)
    (hm : s.serviceOf c.session = some m) (hfree : s.running u = none) :
    s.step size (.take u k) =
      some { s.setRunning u (some (c, false)) with ready := s.ready.eraseIdx k } := by
  simp [Pool.step, hc, hu, hm, hfree]

/-- Every service has a thread besides any one of its threads. -/
theorem exists_other_thread {size u m : Nat} (hu : (threads size)[u]? = some m) :
    ∃ v, v ≠ u ∧ (threads size)[v]? = some m := by
  obtain ⟨hm, hum | hum⟩ := threads_getElem?.mp hu
  · exact ⟨size + m, by omega, threads_getElem?.mpr ⟨hm, Or.inr rfl⟩⟩
  · exact ⟨m, by omega, threads_getElem?.mpr ⟨hm, Or.inl rfl⟩⟩

/-- While a handler of a session is executed, the service's other thread takes another
of that session. -/
theorem exists_overlap_of_running {size : Nat} {s : Pool ι} (hp : Seated size s) {u : Nat}
    {r : Completion ι × Bool} (hr : s.running u = some r) {c : Completion ι} (hc : c ∈ s.ready)
    (hsession : r.1.session = c.session) :
    ∃ cs t, (∀ a ∈ cs, a.OnThread) ∧ run (step size) s cs = some t ∧ ¬ t.Exclusive := by
  obtain ⟨m, hu, hm⟩ := hp.running u r hr
  obtain ⟨v, hne, hv⟩ := exists_other_thread hu
  obtain ⟨cs, t, hcs, ht, hfree, hready, hothers, hservice⟩ := exists_free hp v
  obtain ⟨k, hk⟩ := List.mem_iff_getElem?.mp (hready ▸ hc)
  have hru : t.running u = some r := (hothers u hne.symm).trans hr
  have hm' : t.serviceOf r.1.session = some m := (hservice _).trans hm
  have htake := step_take hk hv (hsession ▸ hm') hfree
  refine ⟨cs ++ [.take v k], _, ?_, run_snoc_eq_some.mpr ⟨t, ht, htake⟩, fun hexclusive => ?_⟩
  · intro a ha
    rcases List.mem_append.mp ha with ha | ha
    · exact hcs a ha
    · cases List.mem_singleton.mp ha
      trivial
  · refine hne (hexclusive v u (c, false) r ?_ ?_ hsession.symm)
    · simp [running_setRunning]
    · simpa [running_setRunning, hne.symm] using hru

/-- Two handlers of a session that are ready are taken by the two threads of its service. -/
theorem exists_overlap_of_ready {size : Nat} {s : Pool ι} (hp : Seated size s)
    {rest : List (Completion ι)} {c c' : Completion ι} (hready : s.ready = rest ++ [c])
    (hc' : c' ∈ rest) (hsession : c.session = c'.session) :
    ∃ cs t, (∀ a ∈ cs, a.OnThread) ∧ run (step size) s cs = some t ∧ ¬ t.Exclusive := by
  obtain ⟨m, hm⟩ := hp.ready c (by simp [hready])
  have hthread : (threads size)[m]? = some m :=
    threads_getElem?.mpr ⟨hp.service _ _ hm, Or.inl rfl⟩
  obtain ⟨cs, t, hcs, ht, hfree, hsame, _, hservice⟩ := exists_free hp m
  have hk : t.ready[rest.length]? = some c := by simp [hsame, hready]
  have htake := step_take hk hthread ((hservice _).trans hm) hfree
  let u : Pool ι := { t.setRunning m (some (c, false)) with ready := t.ready.eraseIdx rest.length }
  have hu : run (step size) s (cs ++ [.take m rest.length]) = some u :=
    run_snoc_eq_some.mpr ⟨t, ht, htake⟩
  have hseated : Seated size u :=
    run_invariant (P := Seated size) hp (fun _ _ _ hs ht => hs.step ht) hu
  have hrest : u.ready = rest := by
    simp [u, hsame, hready, List.eraseIdx_append_of_length_le]
  have hrunning : u.running m = some (c, false) := by simp [u, running_setRunning]
  obtain ⟨ds, v, hds, hv, hoverlap⟩ :=
    exists_overlap_of_running hseated hrunning (hrest.symm ▸ hc') hsession
  refine ⟨(cs ++ [.take m rest.length]) ++ ds, v, ?_, run_append_eq_some.mpr ⟨u, hu, hv⟩, hoverlap⟩
  intro a ha
  rcases List.mem_append.mp ha with ha | ha
  · rcases List.mem_append.mp ha with ha | ha
    · exact hcs a ha
    · cases List.mem_singleton.mp ha
      trivial
  · exact hds a ha

/-- An operation that completes beside a handler of its session makes two of them overlap. -/
theorem exists_overlap_of_not_oneAtATime {size : Nat} {s t : Pool ι} {a : PoolAction ι}
    (hp : Seated size t) (hs : step size s a = some t) (hok : ¬ OneAtATime size s a) :
    ∃ cs u, (∀ c ∈ cs, c.OnThread) ∧ run (step size) t cs = some u ∧ ¬ u.Exclusive := by
  cases a with
  | construct i | start i | send i | take u k | body u | finish u => exact absurd trivial hok
  | complete i op ok =>
    obtain ⟨x, _, rfl⟩ := complete_cases hs
    simp only [OneAtATime, Unhandled, not_and_or, not_forall, not_not] at hok
    rcases hok with ⟨c, hc, hci⟩ | ⟨u, _, r, hr, hri⟩
    · exact exists_overlap_of_ready hp rfl hc hci.symm
    · exact exists_overlap_of_running hp hr (List.mem_append_right _ List.mem_cons_self) hri

/-- A pool of one service: a message is read, head and body, and answered, and the write completes
while the handler of the next read runs. -/
private def readBesideWrite : List (PoolAction Nat) :=
  [.construct 3, .start 3, .complete 3 .read true, .take 0 0, .body 0, .finish 0,
    .complete 3 .read true, .take 0 0, .body 0, .finish 0, .send 3, .complete 3 .read true,
    .take 0 0, .complete 3 .write true, .take 1 0]

/-- The read handler and the write handler of one session on the two threads of its service. -/
theorem handlers_overlap :
    ∃ s, run (step 1) init readBesideWrite = some s ∧
      s.running 0 = some (⟨3, .read, true⟩, false) ∧
      s.running 1 = some (⟨3, .write, true⟩, false) ∧ ¬ s.Exclusive := by
  have hrun : (run (step 1) init readBesideWrite).any fun s =>
      s.running 0 = some (⟨3, .read, true⟩, false) ∧
        s.running 1 = some (⟨3, .write, true⟩, false) := by
    decide +kernel
  obtain ⟨s, hs, hlast⟩ := (Option.any_eq_true _ _).mp hrun
  obtain ⟨hread, hwrite⟩ := of_decide_eq_true hlast
  refine ⟨s, hs, hread, hwrite, fun hexclusive => ?_⟩
  exact absurd (hexclusive 0 1 _ _ hread hwrite rfl) (by simp)

/-- Handlers of one session run apart exactly when its operations complete one at a time:
in no moment of such a run do two threads execute handlers of one session, nor in one
the threads go on to; a run in which an operation completes while a handler of its
session is ready or executed has a moment from which the threads go on to execute two. -/
theorem exclusive_iff_oneAtATime (size : Nat) (as : List (PoolAction ι)) (s : Pool ι)
    (h : run (step size) init as = some s) :
    Along (step size) (OneAtATime size) init as ↔ ∀ bs cs t, bs <+: as →
      (∀ a ∈ cs, a.OnThread) → run (step size) init (bs ++ cs) = some t → t.Exclusive := by
  refine along_iff_never (fun a ha t => ?_) (fun bs t hok ht => (solo_of_run hok ht).exclusive)
    (fun bs t a u ht hu hok => ?_) h
  · cases a with
    | take u k | body u | finish u => trivial
    | construct i | start i | send i | complete i op ok => exact ha.elim
  · have hnext := run_snoc_eq_some.mpr ⟨t, ht, hu⟩
    exact exists_overlap_of_not_oneAtATime (seated_of_run hnext) hu hok

/-- Two sessions of one service, each with its handlers in a row, the second behind a message
that was read, head and body. -/
private def readBehindWrite : List (PoolAction Nat) :=
  [.construct 5, .construct 6, .construct 7, .start 5, .start 7, .complete 7 .read true, .take 2 0,
    .body 2, .finish 2, .complete 7 .read true, .take 2 0, .body 2, .finish 2, .send 7,
    .complete 5 .read true, .complete 7 .write true, .take 0 0, .take 2 0, .body 2, .body 0,
    .finish 2, .complete 7 .read false, .take 2 0]

/-- A read taken behind the write of its session, and one of another session beside it. -/
theorem exclusive_iff_oneAtATime_behind :
    ∃ s, run (step 2) init readBehindWrite = some s ∧
      s.running 0 = some (⟨5, .read, true⟩, true) ∧
      s.running 2 = some (⟨7, .read, false⟩, false) ∧ s.Exclusive := by
  have hrun : (run (step 2) init readBehindWrite).any fun s =>
      s.running 0 = some (⟨5, .read, true⟩, true) ∧
        s.running 2 = some (⟨7, .read, false⟩, false) := by
    decide +kernel
  have hok : Along (step 2) (OneAtATime 2) init readBehindWrite := by decide +kernel
  obtain ⟨s, hs, hlast⟩ := (Option.any_eq_true _ _).mp hrun
  obtain ⟨hfive, hseven⟩ := of_decide_eq_true hlast
  refine ⟨s, hs, hfive, hseven, ?_⟩
  refine (exclusive_iff_oneAtATime 2 readBehindWrite s hs).mp hok readBehindWrite [] s
    List.prefix_rfl (by simp) ?_
  rw [List.append_nil, hs]

end Pool

end ResourceServer
