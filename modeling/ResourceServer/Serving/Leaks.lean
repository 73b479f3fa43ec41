import ResourceServer.Serving.Holders

/-!
# Sessions that are never destroyed

A session with nothing left to do is destroyed exactly if some `clear_session` of it
came behind its insertion into `m_sessions`. Otherwise the map keeps it, and its
socket and its file stream with it, for good.
-/

namespace ResourceServer

open Transition

variable {ι : Type*}

namespace SharedSessions

variable [DecidableEq ι]

/-- Somewhere in the schedule session `i` is cleared behind its insertion. -/
def ClearedInserted (i : ι) (as : List (SharedAction ι)) : Prop :=
  ∃ bs op cs t, as = bs ++ .clear i op :: cs ∧ run step init bs = some t ∧
    (t.registry.conns i).accepted = true

section

variable {s t : SharedSessions ι} {a : SharedAction ι} {i : ι}

/-- The last step clears the session behind its insertion, or an earlier one did. -/
theorem clearedInserted_snoc {as : List (SharedAction ι)} (h : run step init as = some s) :
    ClearedInserted i (as ++ [a]) ↔ ClearedInserted i as ∨
      (∃ op, a = .clear i op) ∧ (s.registry.conns i).accepted = true := by
  constructor
  · rintro ⟨bs, op, cs, t, heq, ht, haccepted⟩
    rcases List.eq_nil_or_concat cs with rfl | ⟨ds, d, rfl⟩
    · obtain ⟨rfl, hlast⟩ := List.append_inj' heq rfl
      cases List.singleton_inj.mp hlast
      rw [h] at ht
      cases ht
      exact Or.inr ⟨⟨op, rfl⟩, haccepted⟩
    · rw [List.concat_eq_append, ← List.cons_append, ← List.append_assoc] at heq
      obtain ⟨rfl, _⟩ := List.append_inj' heq rfl
      exact Or.inl ⟨bs, op, ds, t, rfl, ht, haccepted⟩
  · rintro (⟨bs, op, cs, t, rfl, ht, haccepted⟩ | ⟨⟨op, rfl⟩, haccepted⟩)
    · exact ⟨bs, op, cs ++ [a], t, by simp, ht, haccepted⟩
    · exact ⟨as, op, [], s, rfl, h, haccepted⟩

/-- What a step does to the registration of session `i`. -/
theorem registered_step (hs : s.step a = some t) (i : ι) :
    (a = .insert ∧ s.registry.accepting = some i ∧ i ∈ t.registry.sessions ∧
        (t.registry.conns i).accepted = true) ∨
      (t.registry.conns i).accepted = (s.registry.conns i).accepted ∧
        (i ∈ t.registry.sessions ↔ i ∈ s.registry.sessions ∧ ¬ ∃ op, a = .clear i op) := by
  cases sharedStep_of_step hs with
  | construct | acceptError | acceptReturn | enter | post | again | handlerReturn | call
  | callReturn | pop => exact Or.inr ⟨rfl, by simp [setRunPc]⟩
  | accept | written | write =>
    exact Or.inr ⟨Registry.accepted_setHandler .., by simp [Registry.setHandler, Registry.setConn]⟩
  | close =>
    refine Or.inr ⟨(Registry.accepted_close ..).trans (Registry.accepted_setHandler ..), ?_⟩
    simp [Registry.setHandler, Registry.setConn, Registry.close]
  | @insert j haccepting =>
    by_cases hj : i = j
    · subst hj
      refine Or.inl ⟨rfl, haccepting, Finset.mem_insert_self _ _, ?_⟩
      change ((s.registry.setConn i _).conns i).accepted = true
      rw [Registry.conns_setConn, if_pos rfl]
    · refine Or.inr ⟨?_, by simp [Finset.mem_insert, hj]⟩
      change ((s.registry.setConn j _).conns i).accepted = _
      rw [Registry.conns_setConn, if_neg hj]
  | @clear j op =>
    refine Or.inr ⟨Registry.accepted_setHandler .., ?_⟩
    change i ∈ s.registry.sessions.erase j ↔ _
    rw [Finset.mem_erase, and_comm]
    refine and_congr_right fun _ => ?_
    constructor
    · rintro hne ⟨op', heq⟩
      cases heq
      exact hne rfl
    · rintro hnot rfl
      exact hnot ⟨op, rfl⟩

/-- A session is in `m_sessions` from its insertion to the first `clear_session` behind it. -/
theorem mem_sessions_iff {as : List (SharedAction ι)} (h : run step init as = some s) (i : ι) :
    (i ∈ s.registry.sessions ↔ (s.registry.conns i).accepted = true ∧ ¬ ClearedInserted i as) ∧
      (ClearedInserted i as → (s.registry.conns i).accepted = true) := by
  induction as using List.reverseRecOn generalizing s with
  | nil =>
    rw [run_nil, Option.some.injEq] at h
    subst h
    have hnone : ¬ ClearedInserted i [] := by
      rintro ⟨bs, op, cs, t, heq, _⟩
      simp at heq
    exact ⟨by simp [init, Registry.init, Connection.new], fun hcleared => absurd hcleared hnone⟩
  | append_singleton as a ih =>
    obtain ⟨t, ht, ha⟩ := run_snoc_eq_some.mp h
    obtain ⟨hmem, hlate⟩ := ih ht
    rw [clearedInserted_snoc ht]
    rcases registered_step ha i with ⟨rfl, haccepting, hin, haccepted⟩ | ⟨haccepted, hin⟩
    · have hnew := (((exact_of_run ht).1.ordered.accepting_iff i).mp haccepting).2
      have hnone : ¬ ClearedInserted i as := fun hcleared => by simp [hlate hcleared] at hnew
      simp [hin, haccepted, hnone]
    · rw [haccepted, hin, hmem]
      constructor
      · tauto
      · rintro (hcleared | hcleared)
        · exact hlate hcleared
        · exact hcleared.2

/-- A step leaves the references to a session alone that it does not use. -/
theorem useCount_step (h : s.Shaped) (hs : s.step a = some t) (hi : ¬ a.Uses s i)
    (hmade : s.refs.made i = true) :
    t.refs.made i = true ∧ t.refs.useCount i = s.refs.useCount i := by
  have hcopy : ∀ {j : ι}, i ≠ j →
      (s.refs.copy j).made i = true ∧ (s.refs.copy j).useCount i = s.refs.useCount i := by
    intro j hj
    rw [RefCount.useCount_copy, if_neg hj]
    exact ⟨hmade, rfl⟩
  have hdrop : ∀ {j : ι}, i ≠ j →
      (s.refs.drop j).made i = true ∧ (s.refs.drop j).useCount i = s.refs.useCount i := by
    intro j hj
    rw [RefCount.useCount_drop, if_neg hj]
    exact ⟨hmade, rfl⟩
  cases sharedStep_of_step hs with
  | acceptError | enter | written | close => exact ⟨hmade, rfl⟩
  | @construct j _ _ hnew =>
    have hj : i ≠ j := by
      rintro rfl
      rw [hnew] at hmade
      contradiction
    refine ⟨(RefCount.made_make j i s.refs).trans ((if_neg hj).trans hmade), ?_⟩
    exact (RefCount.useCount_make j i s.refs).trans (if_neg hj)
  | accept hpending => exact hcopy fun hij => hi (hij ▸ hpending)
  | insert haccepting => exact hcopy fun hij => hi (h.accepting i (hij ▸ haccepting))
  | acceptReturn hrunning => exact hdrop fun hij => hi (hij ▸ hrunning)
  | post | again => exact hcopy fun hij => hi hij.symm
  | handlerReturn => exact hdrop fun hij => hi hij.symm
  | @clear j =>
    change (if j ∈ s.registry.sessions then _ else _ : RefCount ι).made i = true ∧
      (if j ∈ s.registry.sessions then _ else _ : RefCount ι).useCount i = _
    split
    · exact hdrop fun hij => hi hij.symm
    · exact ⟨hmade, rfl⟩
  | call _ hque | write _ hque =>
    exact hcopy fun hij => hi ((session_front hque).trans (congrArg some hij.symm))
  | callReturn _ hque | pop _ hque =>
    exact hdrop fun hij => hi ((session_front hque).trans (congrArg some hij.symm))

/-- A step leaves the registration of a session alone that it does not use. -/
theorem mem_sessions_step (h : s.Shaped) (hs : s.step a = some t) (hi : ¬ a.Uses s i) :
    i ∈ t.registry.sessions ↔ i ∈ s.registry.sessions := by
  rcases registered_step hs i with ⟨rfl, haccepting, _⟩ | ⟨_, hin⟩
  · exact absurd (h.accepting i haccepting) hi
  · rw [hin, and_iff_left]
    rintro ⟨op, rfl⟩
    exact hi rfl

/-- Nothing happens any more to a session with nothing left to do. -/
theorem finished_step (h : s.Shaped) (hex : s.refs.Exact s.held) (hmade : s.refs.made i = true)
    (hfin : s.Finished i) (hs : s.step a = some t) :
    t.refs.made i = true ∧ t.Finished i ∧ t.refs.destructed i = s.refs.destructed i := by
  have hi : ¬ a.Uses s i := fun ha => not_finished_of_uses h hs ha hfin
  obtain ⟨hmade', hcount⟩ := useCount_step h hs hi hmade
  refine ⟨hmade', (t.finished_iff_held i).mpr ?_, ?_⟩
  · rw [← (exact_step h hex hs).useCount, hcount, hex.useCount, (s.finished_iff_held i).mp hfin]
    simp only [mem_sessions_step h hs hi]
  · by_contra hne
    exact hi (destructed_step hex hs hne).1

/-- A session with nothing left to do stays what it is. -/
theorem finished_for_good {as bs : List (SharedAction ι)} (h : run step init as = some s)
    (hmade : s.refs.made i = true) (hfin : s.Finished i) (hbs : run step s bs = some t) :
    t.refs.destructed i = s.refs.destructed i := by
  obtain ⟨hshaped, hex⟩ := exact_of_run h
  have hkept : (t.Shaped ∧ t.refs.Exact t.held) ∧ t.refs.made i = true ∧ t.Finished i ∧
      t.refs.destructed i = s.refs.destructed i := by
    refine run_invariant (P := fun t => (t.Shaped ∧ t.refs.Exact t.held) ∧ t.refs.made i = true ∧
      t.Finished i ∧ t.refs.destructed i = s.refs.destructed i)
      ⟨⟨hshaped, hex⟩, hmade, hfin, rfl⟩ ?_ hbs
    rintro u a v ⟨⟨hu, huex⟩, humade, hufin, hsame⟩ ha
    obtain ⟨hvmade, hvfin, hvsame⟩ := finished_step hu huex humade hufin ha
    exact ⟨⟨hu.step ha, exact_step hu huex ha⟩, hvmade, hvfin, hvsame.trans hsame⟩
  exact hkept.2.2.2

end

/-- A session with nothing left to do has been destroyed, or never is: destroyed if it was
not inserted at all or some `clear_session` came behind its insertion, and otherwise never,
since `m_sessions` keeps it. -/
theorem destroyed_iff_clearedInserted (as : List (SharedAction ι)) (s : SharedSessions ι)
    (h : run step init as = some s) (i : ι) (hmade : s.refs.made i = true) (hfin : s.Finished i)
    (bs : List (SharedAction ι)) (t : SharedSessions ι) (hbs : run step s bs = some t) :
    t.refs.destructed i = 1 ↔
      ((s.registry.conns i).accepted = true → ClearedInserted i as) := by
  have hmem := (mem_sessions_iff h i).1
  rw [finished_for_good h hmade hfin hbs, (exact_of_run h).2.destructed_eq_one_iff hmade,
    (s.finished_iff_held i).mp hfin]
  by_cases hin : i ∈ s.registry.sessions
  · obtain ⟨haccepted, hnot⟩ := hmem.mp hin
    rw [if_pos hin]
    exact iff_of_false (by decide) fun hcleared => hnot (hcleared haccepted)
  · rw [if_neg hin]
    refine iff_of_true rfl fun haccepted => ?_
    by_contra hnot
    exact hin (hmem.mpr ⟨haccepted, hnot⟩)

/-- Session 4 fails before it is inserted, with a message in the queue whose answer fails
behind the insertion. -/
private def secondClear : List (SharedAction Nat) :=
  [.construct 4, .accept, .enter 4 .read, .post 4 (RecvNode.new (fun _ => 0) 0 .idTestMsgReq),
    .again 4 .read, .handlerReturn 4, .close 4 .read, .clear 4 .read, .handlerReturn 4, .call,
    .write, .callReturn, .pop, .insert, .construct 5, .acceptReturn, .close 4 .write]

/-- The other session is accepted meanwhile. -/
private def nextAccept : List (SharedAction Nat) := [.accept, .insert]

theorem destroyed_iff_clearedInserted_second : ∃ s t,
    run step init (secondClear ++ [.clear 4 .write, .handlerReturn 4]) = some s ∧
      run step s nextAccept = some t ∧ t.refs.destructed 4 = 1 := by
  have hbefore : (run step init secondClear).any fun u => (u.registry.conns 4).accepted := by
    decide +kernel
  have hrun : (run step init (secondClear ++ [.clear 4 .write, .handlerReturn 4])).any fun s =>
      s.refs.made 4 = true ∧ 4 ∉ s.holders ∧
        ((s.registry.conns 4).handler .read).refs = 0 ∧
        ((s.registry.conns 4).handler .write).refs = 0 ∧ (run step s nextAccept).isSome := by
    decide +kernel
  obtain ⟨u, hu, haccepted⟩ := (Option.any_eq_true _ _).mp hbefore
  obtain ⟨s, hs, hlast⟩ := (Option.any_eq_true _ _).mp hrun
  obtain ⟨hmade, hnot, hread, hwrite, hnext⟩ := of_decide_eq_true hlast
  obtain ⟨t, ht⟩ := Option.isSome_iff_exists.mp hnext
  have hfin : s.Finished 4 := ⟨hnot, fun op => by cases op <;> assumption⟩
  refine ⟨s, t, hs, ht, ?_⟩
  refine (destroyed_iff_clearedInserted _ s hs 4 hmade hfin nextAccept t ht).mpr fun _ => ?_
  exact ⟨secondClear, .write, [.handlerReturn 4], u, rfl, hu, haccepted⟩

end SharedSessions

end ResourceServer
