import ResourceServer.Native.SharedSessions
import ResourceServer.Serving.Lifetime

/-!
# No session is used behind its destructor

The reference count of a session is at every moment the number of references that are
there, so each step finds the session it works on alive. The destructor runs once, with
the last reference, where the accept handler or a handler returns or the worker pops a
node: never inside `clear_session` or a callback.
-/

namespace ResourceServer

open Transition

variable {ι : Type*}

namespace Registry

variable [DecidableEq ι]

/-- A handler that moves on may be a reference to its session or be none any more. -/
theorem refs_setHandler (r : Registry ι) (i j : ι) (op : SessionOp) (pc : HandlerPc) :
    (r.setHandler i op pc).refs j + (if j = i then ((r.conns i).handler op).refs else 0) =
      r.refs j + if j = i then pc.refs else 0 := by
  have hsessions : (r.setHandler i op pc).sessions = r.sessions := rfl
  simp only [refs, handler_setHandler, hsessions]
  by_cases hj : j = i
  · subst hj
    cases op <;> simp <;> omega
  · simp [hj]

/-- An operation is begun. -/
theorem refs_begin {r : Registry ι} {i : ι} {op : SessionOp} (h : (r.conns i).handler op = .idle)
    (j : ι) : (r.setHandler i op .pending).refs j = r.refs j + if j = i then 1 else 0 := by
  have hset := r.refs_setHandler i j op .pending
  rw [h] at hset
  simpa [HandlerPc.refs] using hset

/-- A handler goes on to its return. -/
theorem refs_end {r : Registry ι} {i : ι} {op : SessionOp} {pc : HandlerPc}
    (h : ((r.conns i).handler op).refs = 1) (hpc : pc.refs = 0) (j : ι) :
    r.refs j = (r.setHandler i op pc).refs j + if j = i then 1 else 0 := by
  have hset := r.refs_setHandler i j op pc
  rw [h, hpc] at hset
  simpa using hset.symm

/-- Closing a session drops no reference. -/
theorem refs_close (r : Registry ι) (i j : ι) : (r.close i).refs j = r.refs j := by
  have hsessions : (r.close i).sessions = r.sessions := rfl
  simp only [refs, handler_close, hsessions]

/-- A handler that has failed holds its session on. -/
theorem refs_fail {r : Registry ι} {i : ι} {op : SessionOp}
    (h : (r.conns i).handler op = .pending) (j : ι) :
    ((r.setHandler i op .closed).close i).refs j = r.refs j := by
  have hset := r.refs_setHandler i j op .closed
  rw [h] at hset
  rw [refs_close]
  simpa [HandlerPc.refs] using hset

/-- `clear_session` drops the reference in `m_sessions`, if there is one. -/
theorem refs_clearSession (r : Registry ι) (i j : ι) :
    r.refs j = (r.clearSession i).refs j + if j = i ∧ i ∈ r.sessions then 1 else 0 := by
  simp only [refs, clearSession, Finset.mem_erase]
  by_cases hj : j = i
  · subst hj
    by_cases hmem : j ∈ r.sessions
    · simp [hmem]
      omega
    · simp [hmem]
  · simp [hj]

/-- The insertion adds a reference to a session that is not in `m_sessions`. -/
theorem refs_insert {r : Registry ι} {i : ι} (hi : i ∉ r.sessions) (j : ι) :
    Registry.refs { r.setConn i { r.conns i with accepted := true } with
      sessions := insert i r.sessions, accepting := none } j =
      r.refs j + if j = i then 1 else 0 := by
  simp only [refs, conns_setConn, Finset.mem_insert]
  by_cases hj : j = i
  · subst hj
    simp [hi]
    omega
  · simp [hj]

end Registry

namespace SharedSessions

variable [DecidableEq ι]

/-- What a step can do, and when. -/
inductive SharedStep (s : SharedSessions ι) : SharedAction ι → SharedSessions ι → Prop
  | construct {i : ι} (hpending : s.pendingAccept = none) (haccepting : s.registry.accepting = none)
    (hmade : s.refs.made i = false) : SharedStep s (.construct i)
      { s with pendingAccept := some i, refs := s.refs.make i }
  | acceptError {i : ι} (hpending : s.pendingAccept = some i) (hrunning : s.runningAccept = none) :
    SharedStep s .acceptError { s with pendingAccept := none, runningAccept := some i }
  | accept {i : ι} (hpending : s.pendingAccept = some i) (hrunning : s.runningAccept = none)
    (hstart : s.registry.accepting = none ∧ (s.registry.conns i).handler .read = .idle) :
    SharedStep s .accept { s with
      registry := { s.registry.setHandler i .read .pending with accepting := some i }
      pendingAccept := none
      runningAccept := some i
      refs := s.refs.copy i }
  | insert {i : ι} (haccepting : s.registry.accepting = some i) : SharedStep s .insert { s with
      registry := { s.registry.setConn i { s.registry.conns i with accepted := true } with
        sessions := Insert.insert i s.registry.sessions
        accepting := none }
      refs := s.refs.copy i }
  | acceptReturn {i j : ι} (hrunning : s.runningAccept = some i)
    (hpending : s.pendingAccept = some j) : SharedStep s .acceptReturn
      { s with runningAccept := none, refs := s.refs.drop i }
  | enter {i : ι} {op : SessionOp} (hpending : (s.registry.conns i).handler op = .pending) :
    SharedStep s (.enter i op) (s.setRunPc i op .entered)
  | post {i : ι} {node : RecvNode} (hrun : s.runPc i .read = .entered) :
    SharedStep s (.post i node) { s.setRunPc i .read .posted with
      logicQue := s.logicQue ++ [⟨i, node⟩]
      refs := s.refs.copy i }
  | again {i : ι} {op : SessionOp} (hrun : s.runPc i op ≠ .idle) : SharedStep s (.again i op)
      { s.setRunPc i op .idle with returning := i :: s.returning, refs := s.refs.copy i }
  | written {i : ι} (hpending : (s.registry.conns i).handler .write = .pending) :
    SharedStep s (.written i) { s.setRunPc i .write .idle with
      registry := s.registry.setHandler i .write .idle
      returning := i :: s.returning }
  | close {i : ι} {op : SessionOp} (hrun : s.runPc i op = .idle)
    (hpending : (s.registry.conns i).handler op = .pending) : SharedStep s (.close i op)
      { s with registry := (s.registry.setHandler i op .closed).close i }
  | clear {i : ι} {op : SessionOp} (hclosed : (s.registry.conns i).handler op = .closed) :
    SharedStep s (.clear i op) { s with
      registry := (s.registry.clearSession i).setHandler i op .cleared
      returning := i :: s.returning
      refs := if i ∈ s.registry.sessions then s.refs.drop i else s.refs }
  | handlerReturn {i : ι} (hi : i ∈ s.returning) : SharedStep s (.handlerReturn i)
      { s with returning := s.returning.erase i, refs := s.refs.drop i }
  | call {node : LogicNode ι} {rest : List (LogicNode ι)} (hpc : s.callPc = .waiting)
    (hque : s.logicQue = node :: rest) (hcall : node.invocation.isSome) : SharedStep s .call
      { s with callPc := .calling, refs := s.refs.copy node.session }
  | write {node : LogicNode ι} {rest : List (LogicNode ι)} (hpc : s.callPc = .calling)
    (hque : s.logicQue = node :: rest)
    (hwrite : (s.registry.conns node.session).handler .read ≠ .idle ∧
      (s.registry.conns node.session).handler .write = .idle) : SharedStep s .write
      { s with
        registry := s.registry.setHandler node.session .write .pending
        refs := s.refs.copy node.session }
  | callReturn {node : LogicNode ι} {rest : List (LogicNode ι)} (hpc : s.callPc = .calling)
    (hque : s.logicQue = node :: rest) : SharedStep s .callReturn
      { s with callPc := .called, refs := s.refs.drop node.session }
  | pop {node : LogicNode ι} {rest : List (LogicNode ι)}
    (hpc : s.callPc = .called ∨ s.callPc = .waiting ∧ node.invocation = none)
    (hque : s.logicQue = node :: rest) : SharedStep s .pop
      { s with callPc := .waiting, logicQue := rest, refs := s.refs.drop node.session }

/-- What each action does. -/
theorem sharedStep_of_step {s t : SharedSessions ι} {a : SharedAction ι} (h : s.step a = some t) :
    SharedStep s a t := by
  cases a with
  | construct i =>
    obtain ⟨⟨hpending, haccepting, hmade⟩, ⟨⟩⟩ := Option.ite_none_right_eq_some.mp h
    exact .construct hpending haccepting hmade
  | acceptError =>
    simp only [step] at h
    split at h
    · rename_i i hpending hrunning
      obtain ⟨registry, hr, rfl⟩ := Option.map_eq_some_iff.mp h
      obtain ⟨_, ⟨⟩⟩ := Option.ite_none_right_eq_some.mp hr
      exact .acceptError hpending hrunning
    · contradiction
  | accept =>
    simp only [step] at h
    split at h
    · rename_i i hpending hrunning
      obtain ⟨registry, hr, rfl⟩ := Option.map_eq_some_iff.mp h
      obtain ⟨hidle, ⟨⟩⟩ := Option.ite_none_right_eq_some.mp hr
      exact .accept hpending hrunning hidle
    · contradiction
  | insert =>
    obtain ⟨i, hi, h⟩ := Option.bind_eq_some_iff.mp h
    obtain ⟨registry, hr, rfl⟩ := Option.map_eq_some_iff.mp h
    obtain ⟨j, hj, rfl⟩ := Option.map_eq_some_iff.mp hr
    rw [hi] at hj
    cases hj
    exact .insert hi
  | acceptReturn =>
    simp only [step] at h
    split at h
    · rename_i i j hrunning hpending
      cases h
      exact .acceptReturn hrunning hpending
    · contradiction
  | enter i op =>
    obtain ⟨⟨hpending, _⟩, ⟨⟩⟩ := Option.ite_none_right_eq_some.mp h
    exact .enter hpending
  | post i node =>
    obtain ⟨hrun, ⟨⟩⟩ := Option.ite_none_right_eq_some.mp h
    exact .post hrun
  | again i op =>
    obtain ⟨hrun, ⟨⟩⟩ := Option.ite_none_right_eq_some.mp h
    exact .again hrun
  | written i =>
    obtain ⟨_, h⟩ := Option.ite_none_right_eq_some.mp h
    obtain ⟨registry, hr, rfl⟩ := Option.map_eq_some_iff.mp h
    obtain ⟨hpending, ⟨⟩⟩ := Option.ite_none_right_eq_some.mp hr
    exact .written hpending
  | close i op =>
    obtain ⟨hrun, h⟩ := Option.ite_none_right_eq_some.mp h
    obtain ⟨registry, hr, rfl⟩ := Option.map_eq_some_iff.mp h
    obtain ⟨hpending, ⟨⟩⟩ := Option.ite_none_right_eq_some.mp hr
    exact .close hrun hpending
  | clear i op =>
    obtain ⟨registry, hr, rfl⟩ := Option.map_eq_some_iff.mp h
    obtain ⟨hclosed, ⟨⟩⟩ := Option.ite_none_right_eq_some.mp hr
    exact .clear hclosed
  | handlerReturn i =>
    obtain ⟨hi, ⟨⟩⟩ := Option.ite_none_right_eq_some.mp h
    exact .handlerReturn hi
  | call =>
    simp only [step] at h
    split at h
    · rename_i node rest hpc hque
      obtain ⟨hcall, ⟨⟩⟩ := Option.ite_none_right_eq_some.mp h
      exact .call hpc hque hcall
    · contradiction
  | write =>
    simp only [step] at h
    split at h
    · rename_i node rest hpc hque
      obtain ⟨registry, hr, rfl⟩ := Option.map_eq_some_iff.mp h
      obtain ⟨hidle, ⟨⟩⟩ := Option.ite_none_right_eq_some.mp hr
      exact .write hpc hque hidle
    · contradiction
  | callReturn =>
    simp only [step] at h
    split at h
    · rename_i node rest hpc hque
      cases h
      exact .callReturn hpc hque
    · contradiction
  | pop =>
    simp only [step] at h
    split at h
    · rename_i node rest hque
      obtain ⟨hpc, ⟨⟩⟩ := Option.ite_none_right_eq_some.mp h
      exact .pop hpc hque
    · contradiction

/-- The registry takes its own steps, or none. -/
theorem registry_step {s t : SharedSessions ι} {a : SharedAction ι} (h : s.step a = some t) :
    t.registry = s.registry ∨ ∃ b, s.registry.step b = some t.registry := by
  cases sharedStep_of_step h with
  | construct | acceptError | acceptReturn | enter | post | again | handlerReturn | call
  | callReturn | pop => exact Or.inl rfl
  | accept _ _ hstart => exact Or.inr ⟨.start _, if_pos hstart⟩
  | insert haccepting => exact Or.inr ⟨.insert, by simp [Registry.step, haccepting]⟩
  | written hpending => exact Or.inr ⟨.written _, if_pos hpending⟩
  | close _ hpending => exact Or.inr ⟨.close _ _, if_pos hpending⟩
  | clear hclosed => exact Or.inr ⟨.clear _ _, if_pos hclosed⟩
  | write _ _ hwrite => exact Or.inr ⟨.write _, if_pos hwrite⟩

/-- How the parts that hold a session fit together. -/
structure Shaped (s : SharedSessions ι) : Prop where
  ordered : s.registry.Ordered
  accepting : ∀ i, s.registry.accepting = some i → s.runningAccept = some i
  between : s.pendingAccept ≠ none → s.registry.accepting = none
  inserted : ∀ i ∈ s.registry.sessions, (s.registry.conns i).accepted = true
  running : ∀ i op, s.runPc i op ≠ .idle → (s.registry.conns i).handler op = .pending
  queue : s.callPc ≠ .waiting → s.logicQue ≠ []

omit [DecidableEq ι] in
/-- A server that has accepted nothing is in shape. -/
theorem shaped_init : Shaped (init : SharedSessions ι) where
  ordered := Registry.ordered_init
  accepting _ h := by simp [init, Registry.init] at h
  between h := absurd rfl h
  inserted i hi := absurd hi (Finset.notMem_empty i)
  running _ _ h := absurd rfl h
  queue h := absurd rfl h

section

variable {s t : SharedSessions ι} {a : SharedAction ι}

/-- A handler is executed that was before, or the one that moves on. -/
theorem runPc_of_setRunPc {i j : ι} {op op' : SessionOp} {pc : RunPc}
    (h : (s.setRunPc i op pc).runPc j op' ≠ .idle) :
    j = i ∧ op' = op ∧ pc ≠ .idle ∨ ¬ (j = i ∧ op' = op) ∧ s.runPc j op' ≠ .idle := by
  by_cases hj : j = i
  · subst hj
    by_cases hop : op' = op
    · subst hop
      exact Or.inl ⟨rfl, rfl, by simpa [setRunPc] using h⟩
    · exact Or.inr ⟨fun heq => hop heq.2, by simpa [setRunPc, hop] using h⟩
  · exact Or.inr ⟨fun heq => hj heq.1, by simpa [setRunPc, hj] using h⟩

/-- The session being accepted is the one its handler runs for, after every step. -/
theorem Shaped.accepting_step (h : s.Shaped) (hs : s.step a = some t) :
    ∀ i, t.registry.accepting = some i → t.runningAccept = some i := by
  cases sharedStep_of_step hs with
  | construct | enter | post | again | written | close | clear | handlerReturn | call | write
  | callReturn | pop => exact h.accepting
  | acceptError _ hrunning =>
    intro i hi
    rw [h.accepting i hi] at hrunning
    contradiction
  | accept => exact fun _ hi => hi
  | insert => exact fun i hi => absurd hi (Option.some_ne_none i).symm
  | acceptReturn _ hpending =>
    intro i hi
    have hnone := h.between (by rw [hpending]; exact Option.some_ne_none _)
    rw [hnone] at hi
    contradiction

/-- No session is being accepted while the next accept is pending, after every step. -/
theorem Shaped.between_step (h : s.Shaped) (hs : s.step a = some t) :
    t.pendingAccept ≠ none → t.registry.accepting = none := by
  cases sharedStep_of_step hs with
  | enter | post | again | written | close | clear | handlerReturn | call | write | callReturn
  | pop | acceptReturn => exact h.between
  | construct _ haccepting => exact fun _ => haccepting
  | acceptError | accept => exact fun hne => absurd rfl hne
  | insert => exact fun _ => rfl

/-- Only accepted sessions are in the map, after every step. -/
theorem Shaped.inserted_step (h : s.Shaped) (hs : s.step a = some t) :
    ∀ i ∈ t.registry.sessions, (t.registry.conns i).accepted = true := by
  cases sharedStep_of_step hs with
  | construct | acceptError | acceptReturn | enter | post | again | handlerReturn | call
  | callReturn | pop => exact h.inserted
  | accept | written | write =>
    intro j hj
    exact (Registry.accepted_setHandler ..).trans (h.inserted j hj)
  | close =>
    intro j hj
    exact (Registry.accepted_close ..).trans
      ((Registry.accepted_setHandler ..).trans (h.inserted j hj))
  | clear =>
    intro j hj
    exact (Registry.accepted_setHandler ..).trans (h.inserted j (Finset.mem_of_mem_erase hj))
  | @insert i =>
    intro j hj
    change ((s.registry.setConn i _).conns j).accepted = true
    rw [Registry.conns_setConn]
    split
    · rfl
    · rename_i hne
      exact h.inserted j ((Finset.mem_insert.mp hj).resolve_left hne)

/-- A handler that is executed is still pending, after every step. -/
theorem Shaped.running_step (h : s.Shaped) (hs : s.step a = some t) :
    ∀ i op, t.runPc i op ≠ .idle → (t.registry.conns i).handler op = .pending := by
  cases sharedStep_of_step hs with
  | construct | acceptError | acceptReturn | handlerReturn | call | callReturn | pop =>
    exact h.running
  | accept | write =>
    intro j op hrun
    refine (Registry.handler_setHandler ..).trans ?_
    split
    · rfl
    · exact h.running j op hrun
  | @insert i =>
    intro j op hrun
    change ((s.registry.setConn i _).conns j).handler op = .pending
    rw [Registry.conns_setConn]
    split
    · rename_i hj
      exact hj ▸ h.running j op hrun
    · exact h.running j op hrun
  | enter hpending =>
    intro j op' hrun
    rcases runPc_of_setRunPc hrun with ⟨rfl, rfl, _⟩ | ⟨_, hrun⟩
    · exact hpending
    · exact h.running j op' hrun
  | post hpost =>
    intro j op' hrun
    rcases runPc_of_setRunPc hrun with ⟨rfl, rfl, _⟩ | ⟨_, hrun⟩
    · exact h.running j .read (by rw [hpost]; exact RunPc.noConfusion)
    · exact h.running j op' hrun
  | again =>
    intro j op' hrun
    rcases runPc_of_setRunPc hrun with ⟨_, _, hne⟩ | ⟨_, hrun⟩
    · exact absurd rfl hne
    · exact h.running j op' hrun
  | written =>
    intro j op' hrun
    rcases runPc_of_setRunPc hrun with ⟨_, _, hne⟩ | ⟨hne, hrun⟩
    · exact absurd rfl hne
    · exact (Registry.handler_setHandler ..).trans ((if_neg hne).trans (h.running j op' hrun))
  | close hidle =>
    intro j op' hrun
    rw [Registry.handler_close, Registry.handler_setHandler]
    split
    · rename_i heq
      obtain ⟨rfl, rfl⟩ := heq
      exact absurd hidle hrun
    · exact h.running j op' hrun
  | clear hclosed =>
    intro j op' hrun
    refine (Registry.handler_setHandler ..).trans ?_
    split
    · rename_i heq
      obtain ⟨rfl, rfl⟩ := heq
      have hpending := h.running j op' hrun
      rw [hclosed] at hpending
      contradiction
    · exact h.running j op' hrun

/-- While the worker is busy its node is still queued, after every step. -/
theorem Shaped.queue_step (h : s.Shaped) (hs : s.step a = some t) :
    t.callPc ≠ .waiting → t.logicQue ≠ [] := by
  cases sharedStep_of_step hs with
  | construct | acceptError | accept | insert | acceptReturn | enter | again | written | close
  | clear | handlerReturn | write => exact h.queue
  | post => exact fun _ => List.append_ne_nil_of_right_ne_nil _ (List.cons_ne_nil _ _)
  | call _ hque | callReturn _ hque => exact fun _ => hque ▸ List.cons_ne_nil _ _
  | pop => exact fun hne => absurd rfl hne

/-- Every step keeps the shape. -/
theorem Shaped.step (h : s.Shaped) (hs : s.step a = some t) : t.Shaped where
  ordered := by
    rcases registry_step hs with heq | ⟨b, hb⟩
    · exact heq ▸ h.ordered
    · exact h.ordered.step hb
  accepting := h.accepting_step hs
  between := h.between_step hs
  inserted := h.inserted_step hs
  running := h.running_step hs
  queue := h.queue_step hs

/-! ## The count of the references -/

/-- An optional holder counts once. -/
theorem count_some (i j : ι) : (some i).toList.count j = if j = i then 1 else 0 := by
  simp only [Option.toList_some, List.count_singleton, beq_iff_eq, @eq_comm _ i j]

/-- A holder that is erased counts once less. -/
theorem count_erase {i : ι} {l : List ι} (hi : i ∈ l) (j : ι) :
    l.count j = (l.erase i).count j + if j = i then 1 else 0 := by
  rw [(List.perm_cons_erase hi).count_eq j, List.count_cons]
  simp only [beq_iff_eq, @eq_comm _ i j]

/-- The holders of a session, counted place by place. -/
theorem held_eq (s : SharedSessions ι) (j : ι) : s.held j =
    s.pendingAccept.toList.count j + s.runningAccept.toList.count j + s.returning.count j +
      (s.logicQue.map LogicNode.session).count j + s.argument.toList.count j +
      s.registry.refs j := by
  simp only [held, holders, List.count_append]

omit [DecidableEq ι] in
/-- The callback has its argument from the front, also while messages are posted. -/
theorem Shaped.argument_append (h : s.Shaped) (node : LogicNode ι) :
    argument { s with logicQue := s.logicQue ++ [node] } = s.argument := by
  unfold argument
  by_cases hpc : s.callPc = .calling
  · have hne := h.queue (by rw [hpc]; exact CallPc.noConfusion)
    rw [if_pos hpc, if_pos hpc, List.head?_append_of_ne_nil _ hne]
  · rw [if_neg hpc, if_neg hpc]

/-- Nothing of session `i` is left to do. -/
def Finished (s : SharedSessions ι) (i : ι) : Prop :=
  i ∉ s.holders ∧ ∀ op, ((s.registry.conns i).handler op).refs = 0

omit [DecidableEq ι] in
/-- A session with a handler is not finished. -/
theorem not_finished_of_handler {i : ι} {op : SessionOp}
    (h : ((s.registry.conns i).handler op).refs = 1) : ¬ s.Finished i := by
  intro hfin
  rw [hfin.2 op] at h
  contradiction

omit [DecidableEq ι] in
/-- A session that something holds is not finished. -/
theorem not_finished_of_mem {i : ι} (h : i ∈ s.holders) : ¬ s.Finished i := fun hfin => hfin.1 h

/-- Nothing but `m_sessions` refers to a session with nothing left to do. -/
theorem finished_iff_held (s : SharedSessions ι) (i : ι) :
    s.Finished i ↔ s.held i = if i ∈ s.registry.sessions then 1 else 0 := by
  rw [held, Registry.refs]
  constructor
  · intro h
    rw [List.count_eq_zero.mpr h.1, h.2 .read, h.2 .write]
    omega
  · intro h
    refine ⟨List.count_eq_zero.mp (by omega), fun op => ?_⟩
    cases op <;> omega

/-- A session with something left to do is referred to. -/
theorem held_pos_of_not_finished {i : ι} (h : ¬ s.Finished i) : 0 < s.held i := by
  by_contra hzero
  refine h ((s.finished_iff_held i).mpr ?_)
  rw [held, Registry.refs] at hzero ⊢
  omega

omit [DecidableEq ι] in
/-- The session of the front node. -/
theorem session_front {node : LogicNode ι} {rest : List (LogicNode ι)}
    (hque : s.logicQue = node :: rest) :
    s.logicQue.head?.map LogicNode.session = some node.session := by
  rw [hque]
  rfl

/-- A step works on a session with something left to do. -/
theorem not_finished_of_uses (h : s.Shaped) (hs : s.step a = some t) {i : ι} (ha : a.Uses s i) :
    ¬ s.Finished i := by
  cases sharedStep_of_step hs with
  | construct => exact ha.elim
  | acceptError | accept =>
    have hi : s.pendingAccept = some i := ha
    exact not_finished_of_mem (by simp [holders, hi])
  | insert haccepting =>
    have hi : s.runningAccept = some i := ha
    exact not_finished_of_mem (by simp [holders, hi])
  | acceptReturn =>
    have hi : s.runningAccept = some i := ha
    exact not_finished_of_mem (by simp [holders, hi])
  | enter hpending | written hpending | close _ hpending =>
    cases (show _ = i from ha)
    exact not_finished_of_handler (by rw [hpending]; rfl)
  | clear hclosed =>
    cases (show _ = i from ha)
    exact not_finished_of_handler (by rw [hclosed]; rfl)
  | post hrun =>
    cases (show _ = i from ha)
    have hpending := h.running _ .read (by rw [hrun]; exact RunPc.noConfusion)
    exact not_finished_of_handler (by rw [hpending]; rfl)
  | again hrun =>
    cases (show _ = i from ha)
    exact not_finished_of_handler (by rw [h.running _ _ hrun]; rfl)
  | handlerReturn hi =>
    cases (show _ = i from ha)
    exact not_finished_of_mem (by simp [holders, hi])
  | call _ hque | write _ hque | callReturn _ hque | pop _ hque =>
    cases (session_front hque).symm.trans ha
    exact not_finished_of_mem (by simp [holders, hque])

/-- A posted node is one more reference. -/
theorem held_post (h : s.Shaped) (i : ι) (node : RecvNode) (j : ι) :
    held { s with logicQue := s.logicQue ++ [⟨i, node⟩] } j =
      s.held j + if j = i then 1 else 0 := by
  have hcount : [i].count j = if j = i then 1 else 0 := count_some i j
  rw [held_eq, held_eq, h.argument_append]
  simp only [List.map_append, List.count_append, List.map_cons, List.map_nil]
  omega

/-- So is the argument of the callback. -/
theorem held_calling {node : LogicNode ι} {rest : List (LogicNode ι)} {pc : CallPc}
    (hpc : pc ≠ .calling) (hque : s.logicQue = node :: rest) (j : ι) :
    held { s with callPc := .calling } j =
      held { s with callPc := pc } j + if j = node.session then 1 else 0 := by
  have hsome := count_some node.session j
  have hnone : (none : Option ι).toList.count j = 0 := rfl
  simp only [held_eq, argument, hpc, hque, if_true, if_false, List.head?_cons, Option.map_some]
  omega

/-- `clear_session` leaves the reference of its handler, and takes that of `m_sessions`. -/
theorem held_clear {i : ι} {op : SessionOp} (hclosed : (s.registry.conns i).handler op = .closed)
    (j : ι) : s.held j = held { s with
      registry := (s.registry.clearSession i).setHandler i op .cleared
      returning := i :: s.returning } j + if j = i ∧ i ∈ s.registry.sessions then 1 else 0 := by
  have hrefs : (((s.registry.clearSession i).conns i).handler op).refs = 1 := by
    rw [Registry.clearSession, hclosed]
    rfl
  have hcleared : HandlerPc.cleared.refs = 0 := rfl
  have hend := Registry.refs_end hrefs hcleared j
  have hclear := s.registry.refs_clearSession i j
  simp only [held_eq, List.count_cons, beq_iff_eq, @eq_comm _ i j, argument]
  omega

/-- The counts stay exact in every step. -/
theorem exact_step (h : s.Shaped) (hex : s.refs.Exact s.held) (hs : s.step a = some t) :
    t.refs.Exact t.held := by
  have hpos : ∀ {i}, a.Uses s i → 0 < s.held i :=
    fun hi => held_pos_of_not_finished (not_finished_of_uses h hs hi)
  cases sharedStep_of_step hs with
  | construct hpending _ hmade =>
    refine hex.make hmade fun j => ?_
    simp only [held_eq, hpending, count_some, argument, Option.toList_none, List.count_nil]
    omega
  | acceptError hpending hrunning =>
    refine hex.congr fun j => ?_
    simp only [held_eq, hpending, hrunning, argument, Option.toList_none, List.count_nil]
    omega
  | @accept i hpending hrunning hstart =>
    refine hex.copy (hpos hpending) fun j => ?_
    have hbegin := Registry.refs_begin hstart.2 j
    simp only [held_eq, hpending, hrunning, argument, Option.toList_none, List.count_nil]
    change _ + (s.registry.setHandler i .read .pending).refs j = _
    omega
  | @insert i haccepting =>
    have hnew : i ∉ s.registry.sessions := by
      intro hmem
      have hfalse := ((h.ordered.accepting_iff i).mp haccepting).2
      rw [h.inserted i hmem] at hfalse
      contradiction
    refine hex.copy (hpos (h.accepting i haccepting)) fun j => ?_
    simp only [held_eq, argument, Registry.refs_insert hnew]
    omega
  | acceptReturn hrunning =>
    refine hex.drop fun j => ?_
    simp only [held_eq, hrunning, count_some, argument, Option.toList_none, List.count_nil]
    omega
  | enter => exact hex.congr fun _ => rfl
  | post => exact hex.copy (hpos rfl) (held_post h _ _)
  | @again i =>
    refine hex.copy (hpos rfl) fun j => ?_
    simp only [held_eq, List.count_cons, beq_iff_eq, @eq_comm _ i j, argument, setRunPc]
    omega
  | @written i hpending =>
    have hrefs : ((s.registry.conns i).handler .write).refs = 1 := by rw [hpending]; rfl
    have hidle : HandlerPc.idle.refs = 0 := rfl
    refine hex.congr fun j => ?_
    have hend := Registry.refs_end hrefs hidle j
    simp only [held_eq, List.count_cons, beq_iff_eq, @eq_comm _ i j, argument, setRunPc]
    omega
  | close _ hpending =>
    refine hex.congr fun j => ?_
    simp only [held_eq, argument, Registry.refs_fail hpending]
  | @clear i op hclosed =>
    have hheld := held_clear hclosed
    by_cases hmem : i ∈ s.registry.sessions
    · simp only [hmem, and_true] at hheld
      rw [if_pos hmem]
      exact hex.drop hheld
    · simp only [hmem, and_false, if_false] at hheld
      rw [if_neg hmem]
      exact hex.congr fun j => (hheld j).symm
  | handlerReturn hi =>
    refine hex.drop fun j => ?_
    have hj := count_erase hi j
    simp only [held_eq, argument]
    omega
  | call hpc hque =>
    have hidle : s.callPc ≠ .calling := by rw [hpc]; exact CallPc.noConfusion
    exact hex.copy (hpos (session_front hque)) (held_calling hidle hque)
  | write _ hque hwrite =>
    refine hex.copy (hpos (session_front hque)) fun j => ?_
    simp only [held_eq, argument, Registry.refs_begin hwrite.2]
    omega
  | callReturn hpc hque =>
    have hcalling : { s with callPc := .calling } = s := by rw [← hpc]
    have hcalled : CallPc.called ≠ .calling := CallPc.noConfusion
    have hheld := held_calling hcalled hque
    rw [hcalling] at hheld
    exact hex.drop hheld
  | @pop node rest hpc hque =>
    have hdone : s.callPc ≠ .calling := by
      rcases hpc with hpc | ⟨hpc, _⟩ <;> rw [hpc] <;> exact CallPc.noConfusion
    refine hex.drop fun j => ?_
    simp only [held_eq, argument, hdone, hque, reduceCtorEq, if_false, List.map_cons,
      List.count_cons, beq_iff_eq, @eq_comm _ node.session j]
    omega

/-- The parts fit together and the counts are exact in every run. -/
theorem exact_of_run {as : List (SharedAction ι)} (h : run step init as = some s) :
    s.Shaped ∧ s.refs.Exact s.held := by
  have h0 : RefCount.Exact (init : SharedSessions ι).refs init.held :=
    RefCount.exact_init.congr fun _ => rfl
  refine run_invariant (P := fun s => s.Shaped ∧ s.refs.Exact s.held) ⟨shaped_init, h0⟩ ?_ h
  exact fun s a t hs ht => ⟨hs.1.step ht, exact_step hs.1 hs.2 ht⟩

/-- The destructor of a session runs where the last thread lets it go. -/
theorem destructed_step (hex : s.refs.Exact s.held) (hs : s.step a = some t) {i : ι}
    (hne : t.refs.destructed i ≠ s.refs.destructed i) : a.Uses s i ∧ a.LetsGo := by
  have hdrop : ∀ {j : ι}, (s.refs.drop j).destructed i ≠ s.refs.destructed i →
      i = j ∧ s.held j = 1 := by
    intro j hne
    rw [RefCount.destructed_drop, hex.useCount] at hne
    by_contra hnot
    rw [if_neg hnot] at hne
    exact hne rfl
  cases sharedStep_of_step hs with
  | construct | acceptError | accept | insert | enter | post | again | written | close | call
  | write => exact absurd rfl hne
  | acceptReturn hrunning =>
    obtain ⟨rfl, _⟩ := hdrop hne
    exact ⟨hrunning, trivial⟩
  | handlerReturn =>
    obtain ⟨rfl, _⟩ := hdrop hne
    exact ⟨rfl, trivial⟩
  | pop _ hque =>
    obtain ⟨rfl, _⟩ := hdrop hne
    exact ⟨session_front hque, trivial⟩
  | @callReturn node rest hpc hque =>
    obtain ⟨rfl, hlast⟩ := hdrop hne
    have hargument : s.argument = some node.session := by
      rw [argument, if_pos hpc, session_front hque]
    rw [held_eq, hargument, count_some, if_pos rfl, hque, List.map_cons, List.count_cons_self]
      at hlast
    omega
  | @clear j op hclosed =>
    by_cases hmem : j ∈ s.registry.sessions
    · have hrefs : ((s.registry.conns j).handler op).refs = 1 := by rw [hclosed]; rfl
      change (if j ∈ s.registry.sessions then _ else _ : RefCount ι).destructed i ≠ _ at hne
      rw [if_pos hmem] at hne
      obtain ⟨rfl, hlast⟩ := hdrop hne
      rw [held, Registry.refs, if_pos hmem] at hlast
      cases op <;> omega
    · change (if j ∈ s.registry.sessions then _ else _ : RefCount ι).destructed i ≠ _ at hne
      rw [if_neg hmem] at hne
      exact absurd rfl hne

/-- No step uses a session that is destroyed, whatever else happens to it: the count of a
session is the number of its references at every moment, and its destructor runs once,
in the step that lets the last one go. -/
theorem alive_while_used (as : List (SharedAction ι)) (s : SharedSessions ι)
    (h : run step init as = some s) (i : ι) :
    (s.refs.useCount i = s.held i ∧ s.refs.destructed i ≤ 1 ∧
      (s.refs.made i = true → (s.refs.destructed i = 1 ↔ s.held i = 0))) ∧
    ∀ a t, s.step a = some t →
      (a.Uses s i → 0 < s.refs.useCount i ∧ s.refs.destructed i = 0) ∧
      (t.refs.destructed i ≠ s.refs.destructed i → a.Uses s i ∧ a.LetsGo) := by
  obtain ⟨hshaped, hex⟩ := exact_of_run h
  refine ⟨⟨hex.useCount i, hex.destructed_le_one i, hex.destructed_eq_one_iff⟩, ?_⟩
  intro a t ht
  refine ⟨fun ha => ?_, destructed_step hex ht⟩
  exact hex.alive (held_pos_of_not_finished (not_finished_of_uses hshaped ht ha))

end

/-- A message of session 4 waits for the worker while the session is closed and cleared. -/
private def lateMessage : List (SharedAction Nat) :=
  [.construct 4, .accept, .insert, .construct 5, .acceptReturn, .enter 4 .read,
    .post 4 (RecvNode.new (fun _ => 0) 0 .idTestMsgReq), .again 4 .read, .handlerReturn 4,
    .close 4 .read, .clear 4 .read, .handlerReturn 4, .call, .callReturn]

/-- The node of a late message may be the last to hold its session. -/
theorem alive_while_used_late : ∃ s t, run step init lateMessage = some s ∧ s.held 4 = 1 ∧
    s.refs.destructed 4 = 0 ∧ s.step .pop = some t ∧ t.refs.destructed 4 = 1 := by
  have hrun : (run step init lateMessage).any fun s => s.held 4 = 1 ∧
      s.logicQue.head?.map LogicNode.session = some 4 ∧
      (s.step .pop).any fun t => t.refs.made 4 = true ∧ t.held 4 = 0 := by
    decide +kernel
  obtain ⟨s, hs, hlast⟩ := (Option.any_eq_true _ _).mp hrun
  obtain ⟨hheld, hfront, hpop⟩ := of_decide_eq_true hlast
  obtain ⟨t, ht, hend⟩ := (Option.any_eq_true _ _).mp hpop
  obtain ⟨hmade, hnone⟩ := of_decide_eq_true hend
  have hnext : run step init (lateMessage ++ [.pop]) = some t := run_snoc_eq_some.mpr ⟨s, hs, ht⟩
  refine ⟨s, t, hs, hheld, ?_, ht, ?_⟩
  · exact (((alive_while_used lateMessage s hs 4).2 .pop t ht).1 hfront).2
  · exact ((alive_while_used _ t hnext 4).1.2.2 hmade).mpr hnone

end SharedSessions

end ResourceServer
