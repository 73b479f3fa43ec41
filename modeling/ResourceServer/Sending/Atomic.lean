import ResourceServer.Core.Simulation
import ResourceServer.Native.SplitSender
import ResourceServer.Sending.Capacity
import ResourceServer.Sending.Exclusive

/-!
# When sends and write handlers are atomic

As long as the emptiness tests of `write_handler` are harmless, the steps of the calls
add up to whole calls of `send` and `write_handler`, one after another. A handler takes
effect where it pops, a refused call where it reads the size, an accepted call where it
pushes; but a call that has seen a busy queue takes effect before a pop that empties
the queue under it.
-/

namespace ResourceServer

open Transition

namespace SplitSender

/-- What the handshake sees of the send half: numbers for nodes. A handler that was given
an error counts as one that does not go on. -/
def handshake (s : SplitSender) : Handshake where
  sendQueue := s.sendQueue.map SendPtr.number
  accepted := s.accepted.length
  writing := s.writing.map WriteOp.number
  started := s.started
  send := s.pc
  completed := s.completed + s.failed
  popped := s.popped
  resuming := s.resuming

/-- The emptiness tests do no harm. -/
def Harmless (s : SplitSender) : SplitAction → Prop
  | .handlerTest => s.handshake.Harmless .handlerTest
  | _ => True

instance (s : SplitSender) : (a : SplitAction) → Decidable (s.Harmless a)
  | .handlerTest => inferInstanceAs (Decidable (s.handshake.Harmless .handlerTest))
  | .call _ _ | .send | .writeSome _ _ | .complete _ | .fail _ | .handlerPop | .handlerStart =>
    isTrue trivial

/-- The running call has seen a busy queue, and its node is all there is to write. -/
def Ahead (s : SplitSender) : Prop := s.pc.PushComing ∧ s.sendQueue = []

instance (s : SplitSender) : Decidable s.Ahead := inferInstanceAs (Decidable (_ ∧ _))

/-- The queue as it is once a push that has taken effect is made. -/
def due (s : SplitSender) : Sender :=
  if s.Ahead then
    { s.toSender with
      sendQueue := [⟨s.accepted.length, s.message.node s.fresh⟩]
      accepted := s.accepted ++ [s.message] }
  else s.toSender

/-- The state of atomic calls that the state between two steps stands for. -/
def atomic (s : SplitSender) : Sender :=
  if s.writing ≠ [] ∨ s.failed ≠ 0 then s.due
  else if s.completed ≠ 0 then
    { s.due with writing := (s.due.sendQueue.take 1).map fun ptr => ⟨ptr.number, []⟩ }
  else s.due.startFront

/-- The running call has yet to take effect. -/
def Open (s : SplitSender) : Prop :=
  match s.pc with
  | .sized queSize => queSize ≤ maxSendQue ∧ (queSize = 0 ∨ s.sendQueue ≠ [])
  | .idle | .pushed _ | .starting => False

instance (s : SplitSender) : Decidable s.Open :=
  match h : s.pc with
  | .sized queSize =>
    decidable_of_iff (queSize ≤ maxSendQue ∧ (queSize = 0 ∨ s.sendQueue ≠ [])) (by rw [Open, h])
  | .idle | .pushed _ | .starting => isFalse (by rw [Open, h]; exact id)

/-- The handshake counts the writes, the handlers and the call that is to write. -/
theorem writers_handshake (s : SplitSender) : s.handshake.writers =
    s.writing.length + (s.completed + s.failed) + s.resuming + s.pc.writes := by
  simp only [Handshake.writers, handshake, List.length_map]

/-- With a queue that is not empty, nothing is pushed early. -/
theorem due_of_ne {s : SplitSender} (hq : s.sendQueue ≠ []) : s.due = s.toSender :=
  if_neg fun h => hq h.2

/-- Without a push to come, nothing is pushed early. -/
theorem due_of_not_coming {s : SplitSender} (hpc : ¬ s.pc.PushComing) : s.due = s.toSender :=
  if_neg fun h => hpc h.1

/-- The call whose push is coming has seen a busy queue, and not a full one. -/
theorem sized_of_coming {pc : SendPc} (h : pc.PushComing) :
    ∃ queSize, pc = .sized queSize ∧ 0 < queSize ∧ queSize ≤ maxSendQue := by
  cases pc with
  | sized queSize => exact ⟨queSize, rfl, h⟩
  | idle | pushed _ | starting => exact h.elim

/-- The invariant of harmless runs. -/
structure Whole (s : SplitSender) : Prop where
  inv : s.handshake.Inv
  /-- The write in flight is that of the front. -/
  front : ∀ op ∈ s.writing, ∃ front rest, s.sendQueue = front :: rest ∧ op.number = front.number
  /-- The queue only shrinks behind the reading of its size. -/
  sized : ∀ queSize, s.pc = .sized queSize → s.sendQueue.length ≤ queSize

/-- A new sender keeps the invariant. -/
theorem whole_init : Whole init where
  inv := Handshake.inv_init
  front _ hop := absurd hop List.not_mem_nil
  sized _ h := SendPc.noConfusion h

namespace Whole

variable {s : SplitSender}

/-- At most one party has the right to write: a write, a handler or the call. -/
theorem writers_le (h : s.Whole) :
    s.writing.length + (s.completed + s.failed) + s.resuming + s.pc.writes ≤ 1 :=
  s.writers_handshake ▸ h.inv.writers_le

/-- Whoever writes the front has one. -/
theorem exists_front (h : s.Whole)
    (hw : s.writing.length + (s.completed + s.failed) + s.resuming + s.pc.writes ≠ 0) :
    ∃ front rest, s.sendQueue = front :: rest := by
  have hne := h.inv.queue_pos (s.writers_handshake ▸ hw)
  exact List.exists_cons_of_ne_nil fun hq => hne (congrArg (List.map SendPtr.number) hq)

/-- The only write in flight is that of the front, and nobody else may start one. -/
theorem writing_cases (h : s.Whole) {i : Nat} {op : WriteOp} (hop : s.writing[i]? = some op) :
    i = 0 ∧ s.writing = [op] ∧ s.completed = 0 ∧ s.failed = 0 ∧
      ∃ front rest, s.sendQueue = front :: rest ∧ op.number = front.number := by
  obtain ⟨hi, hget⟩ := List.getElem?_eq_some_iff.mp hop
  have hle := h.writers_le
  have hlen : s.writing.length = 1 := by omega
  obtain ⟨op', hw⟩ := List.length_eq_one_iff.mp hlen
  have hzero : i = 0 := by omega
  subst hzero
  have hsame : op' = op := by
    rw [hw] at hop
    exact Option.some.inj hop
  subst hsame
  exact ⟨rfl, hw, by omega, by omega, h.front op' (hw ▸ List.mem_singleton_self op')⟩

/-- A handler about to pop is the only one to have the front. -/
theorem completed_cases (h : s.Whole) (hc : 0 < s.completed) :
    s.writing = [] ∧ s.completed = 1 ∧ s.failed = 0 ∧
      ∃ front rest, s.sendQueue = front :: rest := by
  have hle := h.writers_le
  exact ⟨List.length_eq_zero_iff.mp (by omega), by omega, by omega, h.exists_front (by omega)⟩

/-- So is one that is about to start a write. -/
theorem starting_cases (h : s.Whole) (hr : 0 < s.resuming + s.pc.writes) :
    s.writing = [] ∧ s.completed = 0 ∧ s.failed = 0 ∧
      ∃ front rest, s.sendQueue = front :: rest := by
  have hle := h.writers_le
  exact ⟨List.length_eq_zero_iff.mp (by omega), by omega, by omega, h.exists_front (by omega)⟩

/-- A step that the handshake takes too keeps the invariant. -/
theorem of_step {t : SplitSender} (h : s.Whole) {a : HandshakeAction}
    (ha : s.handshake.Harmless a) (hs : s.handshake.step a = some t.handshake)
    (hfront : ∀ op ∈ t.writing, ∃ front rest,
      t.sendQueue = front :: rest ∧ op.number = front.number)
    (hsized : ∀ queSize, t.pc = .sized queSize → t.sendQueue.length ≤ queSize) : t.Whole :=
  ⟨h.inv.step ha hs, hfront, hsized⟩

/-- A call that reads the queue's size keeps the invariant. -/
theorem call (h : s.Whole) (hpc : s.pc = .idle) (m : Message) (fresh : Nat → Byte) :
    Whole { s with pc := .sized s.sendQueue.length, message := m, fresh := fresh } := by
  refine h.of_step (a := .send) trivial ?_ h.front ?_
  · simp only [Handshake.step, handshake, hpc, List.length_map]
  · rintro _ ⟨⟩
    exact Nat.le_refl _

/-- A write that is started is that of the front. -/
theorem front_of_started {front : SendPtr} {rest : List SendPtr}
    (hq : s.sendQueue = front :: rest) (hw : s.writing = []) :
    ∀ op ∈ s.writing ++ [⟨front.number, front.node.buffer⟩], ∃ front rest,
      s.sendQueue = front :: rest ∧ op.number = front.number := by
  intro op hop
  rw [hw, List.nil_append] at hop
  obtain rfl := List.mem_singleton.mp hop
  exact ⟨front, rest, hq, rfl⟩

/-- The steps of a call keep the invariant. -/
theorem sendStep {t : SplitSender} (h : s.Whole) (hs : s.sendStep = some t) : t.Whole := by
  unfold SplitSender.sendStep at hs
  cases hpc : s.pc with
  | idle =>
    simp only [hpc] at hs
    contradiction
  | sized queSize =>
    simp only [hpc] at hs
    by_cases hcap : maxSendQue < queSize
    · rw [if_pos hcap] at hs
      cases hs
      refine h.of_step (a := .send) trivial ?_ h.front fun _ hsize => SendPc.noConfusion hsize
      simp only [Handshake.step, handshake, hpc, if_pos hcap]
    · rw [if_neg hcap] at hs
      cases hs
      refine h.of_step (a := .send) trivial ?_ ?_ fun _ hsize => SendPc.noConfusion hsize
      · simp only [Handshake.step, handshake, hpc, if_neg hcap, List.map_append, List.map_cons,
          List.map_nil, List.length_append, List.length_singleton]
      · intro op hop
        obtain ⟨front, rest, hq, hnum⟩ := h.front op hop
        exact ⟨front, rest ++ [_], by rw [hq]; rfl, hnum⟩
  | pushed queSize =>
    simp only [hpc] at hs
    cases hs
    refine h.of_step (a := .send) trivial ?_ h.front ?_
    · simp only [Handshake.step, handshake, hpc]
    · intro size hsize
      simp only at hsize
      split at hsize <;> contradiction
  | starting =>
    simp only [hpc] at hs
    obtain ⟨u, hu, rfl⟩ := Option.map_eq_some_iff.mp hs
    obtain ⟨front, rest, hq, rfl⟩ := startFront_cases hu
    obtain ⟨hw, _⟩ := h.starting_cases (by simp [hpc])
    refine h.of_step (a := .send) trivial ?_ (front_of_started hq hw)
      fun _ hsize => SendPc.noConfusion hsize
    simp only [Handshake.step, Handshake.startFront, handshake, hpc, hq, List.map_cons,
      List.head?_cons, Option.map_some, List.map_append, List.map_nil]

/-- A handler that starts keeps the invariant. -/
theorem handlerStart {t : SplitSender} (h : s.Whole)
    (hs : s.step .handlerStart = some t) : t.Whole := by
  obtain ⟨hr, hs⟩ := Option.ite_none_right_eq_some.mp hs
  obtain ⟨u, hu, rfl⟩ := Option.map_eq_some_iff.mp hs
  obtain ⟨front, rest, hq, rfl⟩ := startFront_cases hu
  obtain ⟨hw, _⟩ := h.starting_cases (by omega)
  refine h.of_step (a := .handlerStart) trivial ?_ (front_of_started hq hw) h.sized
  simp only [Handshake.step, Handshake.startFront, handshake, hq, List.map_cons, if_pos hr,
    List.head?_cons, Option.map_some, List.map_append, List.map_nil]

/-- A write of some bytes keeps the invariant. -/
theorem writeSome {t : SplitSender} {i k : Nat} (h : s.Whole)
    (hs : s.step (.writeSome i k) = some t) : t.Whole := by
  obtain ⟨u, hu, rfl⟩ := Option.map_eq_some_iff.mp hs
  obtain ⟨op, hop, _, rfl⟩ := Sender.writeSome_cases hu
  obtain ⟨rfl, hw, _, _, front, rest, hq, hnum⟩ := h.writing_cases hop
  refine ⟨?_, ?_, h.sized⟩
  · have hsame : handshake { s with
        writing := s.writing.set 0 { op with rest := op.rest.drop k }
        wire := s.wire ++ op.rest.take k } = s.handshake := by
      simp only [handshake, hw, List.set_cons_zero, List.map_cons]
    exact hsame ▸ h.inv
  · intro op' hop'
    rw [hw] at hop'
    obtain rfl := List.mem_singleton.mp hop'
    exact ⟨front, rest, hq, hnum⟩

/-- A write that completes keeps the invariant. -/
theorem completeWrite {t : SplitSender} {i : Nat} (h : s.Whole)
    (hs : s.completeWrite i = some t) : t.Whole := by
  obtain ⟨op, hop, _, rfl⟩ := completeWrite_cases hs
  obtain ⟨rfl, hw, hc, hf, _⟩ := h.writing_cases hop
  have hnone : s.writing.eraseIdx 0 = [] := by rw [hw]; rfl
  refine h.of_step (a := .complete op.number) trivial ?_ ?_ h.sized
  · simp [Handshake.step, handshake, hw, hc, hf]
  · intro op' hop'
    exact absurd (hnone ▸ hop') List.not_mem_nil

/-- A write that fails keeps the invariant. -/
theorem fail {t : SplitSender} {i : Nat} (h : s.Whole) (hs : s.step (.fail i) = some t) :
    t.Whole := by
  obtain ⟨u, hu, rfl⟩ := Option.map_eq_some_iff.mp hs
  obtain ⟨op, hop, rfl⟩ := Sender.handler_of_fail hu
  obtain ⟨rfl, hw, hc, hf, _⟩ := h.writing_cases hop
  have hnone : s.writing.eraseIdx 0 = [] := by rw [hw]; rfl
  refine h.of_step (a := .complete op.number) trivial ?_ ?_ h.sized
  · simp [Handshake.step, handshake, hw, hc, hf, Sender.writeHandler, Sender.close]
  · intro op' hop'
    exact absurd (hnone ▸ hop') List.not_mem_nil

/-- A handler that pops its node keeps the invariant. -/
theorem handlerPop {t : SplitSender} (h : s.Whole) (hs : s.step .handlerPop = some t) :
    t.Whole := by
  obtain ⟨hc, hs⟩ := Option.ite_none_right_eq_some.mp hs
  cases hs
  obtain ⟨hw, hone, hf, front, rest, hq⟩ := h.completed_cases hc
  refine h.of_step (a := .handlerPop) trivial ?_ ?_ ?_
  · simp [Handshake.step, handshake, hone, hf, hq]
  · intro op hop
    exact absurd (hw ▸ hop) List.not_mem_nil
  · intro queSize hsize
    exact (by simp : s.sendQueue.tail.length ≤ s.sendQueue.length).trans (h.sized queSize hsize)

/-- A harmless test of the queue keeps the invariant. -/
theorem handlerTest {t : SplitSender} (h : s.Whole) (hok : s.Harmless .handlerTest)
    (hs : s.step .handlerTest = some t) : t.Whole := by
  obtain ⟨hp, hs⟩ := Option.ite_none_right_eq_some.mp hs
  by_cases hq : s.sendQueue.isEmpty
  · rw [if_pos hq] at hs
    cases hs
    refine h.of_step (a := .handlerTest) hok ?_ h.front h.sized
    simp [Handshake.step, handshake, hp, List.isEmpty_iff.mp hq]
  · rw [if_neg hq] at hs
    cases hs
    refine h.of_step (a := .handlerTest) hok ?_ h.front h.sized
    simp [Handshake.step, handshake, hp, mt List.isEmpty_iff.mpr hq]

/-- Every harmless step keeps the invariant. -/
theorem step {t : SplitSender} {a : SplitAction} (h : s.Whole) (hok : s.Harmless a)
    (hs : s.step a = some t) : t.Whole := by
  cases a with
  | call m fresh =>
    obtain ⟨hpc, ⟨⟩⟩ := Option.ite_none_right_eq_some.mp hs
    exact h.call hpc m fresh
  | send => exact h.sendStep hs
  | writeSome i k => exact h.writeSome hs
  | complete i => exact h.completeWrite hs
  | fail i => exact h.fail hs
  | handlerPop => exact h.handlerPop hs
  | handlerTest => exact h.handlerTest hok hs
  | handlerStart => exact h.handlerStart hs

end Whole

variable {s t : SplitSender}

/-- A queue with a front is not empty. -/
theorem ne_of_front {front : SendPtr} {rest : List SendPtr} (hq : s.sendQueue = front :: rest) :
    s.sendQueue ≠ [] := hq ▸ List.cons_ne_nil front rest

/-- With a write in flight, or behind one that has failed, the two are in one state. -/
theorem atomic_of_owned (hq : s.sendQueue ≠ []) (h : s.writing ≠ [] ∨ s.failed ≠ 0) :
    s.atomic = s.toSender := (if_pos h).trans (due_of_ne hq)

/-- A handler about to pop is a write that has nothing left. -/
theorem atomic_of_completed {front : SendPtr} {rest : List SendPtr}
    (hq : s.sendQueue = front :: rest) (hw : s.writing = []) (hf : s.failed = 0)
    (hc : s.completed ≠ 0) :
    s.atomic = { s.toSender with writing := [⟨front.number, []⟩] } := by
  rw [atomic, if_neg (not_or.mpr ⟨not_not.mpr hw, not_not.mpr hf⟩), if_pos hc,
    due_of_ne (ne_of_front hq), hq]
  rfl

/-- With no write in flight and no handler about to pop, atomic calls have started the front. -/
theorem atomic_of_rest (hw : s.writing = []) (hf : s.failed = 0) (hc : s.completed = 0) :
    s.atomic = s.due.startFront := by
  rw [atomic, if_neg (not_or.mpr ⟨not_not.mpr hw, not_not.mpr hf⟩), if_neg (not_not.mpr hc)]

/-- What moves neither the queue nor a write changes nothing for atomic calls. -/
theorem atomic_congr (hdue : t.due = s.due) (hw : t.writing = s.writing)
    (hf : t.failed = s.failed) (hc : t.completed = s.completed) : t.atomic = s.atomic := by
  rw [atomic, atomic, hdue, hw, hf, hc]

/-- Atomic calls have the queue as it is due. -/
theorem sendQueue_atomic (s : SplitSender) : s.atomic.sendQueue = s.due.sendQueue := by
  unfold atomic
  split
  · rfl
  · split
    · rfl
    · exact Sender.sendQueue_startFront s.due

/-- The calls of `send` in a schedule. -/
def calls (as : List SplitAction) : List Message :=
  as.filterMap fun
    | .call m _ => some m
    | _ => none

/-- The atomic calls of `send` in a schedule. -/
def sends (bs : List SendAction) : List Message :=
  bs.filterMap fun
    | .send m _ => some m
    | _ => none

/-- What the running call is to send, as long as it has yet to take effect. -/
def unsent (s : SplitSender) : List Message := if s.Open then [s.message] else []

/-- A step is made of steps of atomic calls, none, one or two. -/
def Follows (s : SplitSender) (a : SplitAction) (t : SplitSender) : Prop :=
  ∃ bs, run (Sender.step maxSendQue) s.atomic bs = some t.atomic ∧
    s.unsent ++ calls [a] = sends bs ++ t.unsent

/-- When a call that has read the size has yet to take effect. -/
theorem open_of_sized {queSize : Nat} (hpc : s.pc = .sized queSize) :
    s.Open ↔ queSize ≤ maxSendQue ∧ (queSize = 0 ∨ s.sendQueue ≠ []) := by
  rw [Open, hpc]

/-- A call that has yet to take effect has its message to send. -/
theorem unsent_of_open (h : s.Open) : s.unsent = [s.message] := if_pos h

/-- Any other call has nothing more to send. -/
theorem unsent_of_not_open (h : ¬ s.Open) : s.unsent = [] := if_neg h

/-- Steps that atomic calls do not see. -/
theorem follows_of_eq {a : SplitAction} (hatomic : t.atomic = s.atomic)
    (hunsent : s.unsent ++ calls [a] = t.unsent) : Follows s a t :=
  ⟨[], congrArg some hatomic.symm, hunsent⟩

/-- A refused call takes effect where it reads the size. -/
theorem follows_call (hpc : s.pc = .idle) (m : Message) (fresh : Nat → Byte) :
    Follows s (.call m fresh)
      { s with pc := .sized s.sendQueue.length, message := m, fresh := fresh } := by
  set t : SplitSender :=
    { s with pc := .sized s.sendQueue.length, message := m, fresh := fresh } with ht
  have hs : s.due = s.toSender := due_of_not_coming (by rw [hpc]; exact id)
  have hdue : t.due = s.due := by
    rw [hs]
    refine if_neg ?_
    rintro ⟨hcoming, hq⟩
    exact absurd (congrArg List.length hq) hcoming.1.ne'
  have hatomic : t.atomic = s.atomic := atomic_congr hdue rfl rfl rfl
  have hidle : s.unsent = [] := unsent_of_not_open (by rw [Open, hpc]; exact id)
  have hopen : t.Open ↔ s.sendQueue.length ≤ maxSendQue ∧
      (s.sendQueue.length = 0 ∨ s.sendQueue ≠ []) := open_of_sized rfl
  by_cases hcap : s.sendQueue.length ≤ maxSendQue
  · refine follows_of_eq hatomic ?_
    rw [hidle, unsent_of_open (hopen.mpr ⟨hcap, ?_⟩)]
    · rfl
    · rw [List.length_eq_zero_iff]
      exact em _
  · refine ⟨[.send m fresh], ?_, ?_⟩
    · have hlen : maxSendQue < s.atomic.sendQueue.length := by
        rw [sendQueue_atomic, hs]
        exact Nat.lt_of_not_le hcap
      rw [run_cons, Sender.step, Sender.send_of_lt hlen, hatomic]
      rfl
    · rw [hidle, unsent_of_not_open fun h => hcap (hopen.mp h).1]
      rfl

/-- One step of the atomic calls. -/
theorem follows_of_send {a : SplitAction}
    (hstep : s.atomic.send maxSendQue s.fresh s.message = t.atomic) (hs : s.Open) (ht : ¬ t.Open)
    (ha : calls [a] = []) : Follows s a t := by
  refine ⟨[.send s.message s.fresh], ?_, ?_⟩
  · rw [run_cons, Sender.step, hstep]
    rfl
  · rw [unsent_of_open hs, unsent_of_not_open ht, ha]
    rfl

/-- An accepted call takes effect where it pushes, unless it has before. -/
theorem Whole.follows_push (h : s.Whole) {queSize : Nat} (hpc : s.pc = .sized queSize)
    (hcap : queSize ≤ maxSendQue) :
    Follows s .send { s with
      sendQueue := s.sendQueue ++ [⟨s.accepted.length, s.message.node s.fresh⟩]
      accepted := s.accepted ++ [s.message]
      pc := .pushed queSize } := by
  set t : SplitSender := { s with
    sendQueue := s.sendQueue ++ [⟨s.accepted.length, s.message.node s.fresh⟩]
    accepted := s.accepted ++ [s.message]
    pc := .pushed queSize } with ht
  have hdue : t.due = t.toSender := due_of_not_coming id
  have hlen := h.sized queSize hpc
  by_cases hq : s.sendQueue = []
  · by_cases hzero : queSize = 0
    · subst hzero
      have hnone := h.writers_le
      have hrest : s.writing.length + (s.completed + s.failed) + s.resuming + s.pc.writes = 0 := by
        by_contra hw
        obtain ⟨front, rest, hfront⟩ := h.exists_front hw
        exact List.cons_ne_nil _ _ (hfront.symm.trans hq)
      have hw : s.writing = [] := List.length_eq_zero_iff.mp (by omega)
      have hf : s.failed = 0 := by omega
      have hc : s.completed = 0 := by omega
      have hdue' : s.due = s.toSender := by
        refine due_of_not_coming ?_
        rw [hpc]
        exact fun hp => hp.1.ne rfl
      refine follows_of_send ?_ ((open_of_sized hpc).mpr ⟨hcap, Or.inl rfl⟩) id rfl
      rw [atomic_of_rest hw hf hc, atomic_of_rest (s := t) hw hf hc, hdue, hdue']
      have hsame : s.toSender.startFront = s.toSender := by rw [Sender.startFront, hq]
      rw [hsame, Sender.send_nil hq, Sender.startFront, ht]
      simp [hq]
    · have hahead : s.Ahead := ⟨by rw [hpc]; exact ⟨Nat.pos_of_ne_zero hzero, hcap⟩, hq⟩
      refine follows_of_eq (atomic_congr ?_ rfl rfl rfl) ?_
      · rw [hdue, due, if_pos hahead, ht]
        simp [hq]
      · rw [unsent_of_not_open, unsent_of_not_open (s := t) id]
        · rfl
        · rintro hopen
          exact ((open_of_sized hpc).mp hopen).2.elim hzero fun hne => hne hq
  · refine follows_of_send ?_ ((open_of_sized hpc).mpr ⟨hcap, Or.inr hq⟩) id rfl
    have hdue' : s.due = s.toSender := due_of_ne hq
    obtain ⟨front, rest, hfront⟩ := List.exists_cons_of_ne_nil hq
    have hne : s.atomic.sendQueue ≠ [] := by rwa [sendQueue_atomic, hdue']
    have hfits : s.atomic.sendQueue.length ≤ maxSendQue := by
      rw [sendQueue_atomic, hdue']
      exact hlen.trans hcap
    rw [Sender.send_of_ne hfits hne]
    unfold atomic
    rw [hdue, hdue']
    split
    · rfl
    · split <;> simp [ht, hfront, Sender.startFront]

/-- Whether the running call has taken effect depends on the call and the queue. -/
theorem unsent_congr (hpc : t.pc = s.pc) (hq : t.sendQueue = s.sendQueue)
    (hm : t.message = s.message) : t.unsent = s.unsent := by
  have hopen : t.Open ↔ s.Open := by rw [Open, Open, hpc, hq]
  rw [unsent, unsent, hm]
  exact if_congr hopen rfl rfl

/-- A call that is not between its test and its push has nothing more to send. -/
theorem unsent_of_pc (hpc : ∀ queSize, s.pc ≠ .sized queSize) : s.unsent = [] := by
  refine unsent_of_not_open ?_
  unfold Open
  cases hs : s.pc with
  | sized queSize => exact absurd hs (hpc queSize)
  | idle | pushed _ | starting => exact id

/-- A write that a party of its own had the right to start was started before. -/
theorem Whole.atomic_startFront (h : s.Whole) (hr : 0 < s.resuming + s.pc.writes)
    {front : SendPtr} {rest : List SendPtr} (hq : s.sendQueue = front :: rest)
    (ht : t.toSender = s.toSender.startFront) : t.atomic = s.atomic := by
  obtain ⟨hw, hc, hf, _⟩ := h.starting_cases hr
  have htq : t.sendQueue = s.sendQueue := by rw [ht, Sender.sendQueue_startFront]
  have hwriting : t.writing ≠ [] := by
    rw [ht, Sender.startFront, hq]
    exact List.append_ne_nil_of_right_ne_nil _ (List.cons_ne_nil _ _)
  rw [atomic_of_owned (htq ▸ ne_of_front hq) (Or.inl hwriting), atomic_of_rest hw hf hc,
    due_of_ne (ne_of_front hq), ht]

/-- Atomic calls follow the steps of a call. -/
theorem Whole.follows_sendStep (h : s.Whole) (hs : s.sendStep = some t) : Follows s .send t := by
  unfold SplitSender.sendStep at hs
  cases hpc : s.pc with
  | idle =>
    simp only [hpc] at hs
    contradiction
  | sized queSize =>
    simp only [hpc] at hs
    by_cases hcap : maxSendQue < queSize
    · rw [if_pos hcap] at hs
      cases hs
      have hdue : s.due = s.toSender :=
        due_of_not_coming (by rw [hpc]; exact fun hp => absurd hp.2 (Nat.not_le.mpr hcap))
      refine follows_of_eq (atomic_congr (hdue ▸ due_of_not_coming id) rfl rfl rfl) ?_
      rw [unsent_of_not_open fun ho => absurd ((open_of_sized hpc).mp ho).1 (Nat.not_le.mpr hcap)]
      rfl
    · rw [if_neg hcap] at hs
      cases hs
      exact h.follows_push hpc (Nat.le_of_not_lt hcap)
  | pushed queSize =>
    simp only [hpc] at hs
    cases hs
    have hnext : ∀ size, (if 0 < queSize then SendPc.idle else .starting) ≠ .sized size := by
      intro size hsize
      split at hsize <;> contradiction
    have hdue : s.due = s.toSender := due_of_not_coming (by rw [hpc]; exact id)
    refine follows_of_eq (atomic_congr ?_ rfl rfl rfl) ?_
    · rw [hdue]
      refine due_of_not_coming ?_
      change ¬ SendPc.PushComing (if 0 < queSize then SendPc.idle else .starting)
      split <;> exact id
    · rw [unsent_of_pc (by rw [hpc]; exact fun _ => SendPc.noConfusion), unsent_of_pc hnext]
      rfl
  | starting =>
    simp only [hpc] at hs
    obtain ⟨u, hu, rfl⟩ := Option.map_eq_some_iff.mp hs
    obtain ⟨front, rest, hq, hstart⟩ := startFront_cases hu
    refine follows_of_eq (h.atomic_startFront (by simp [hpc]) hq ?_) ?_
    · rw [hstart, Sender.startFront, hq]
    · rw [unsent_of_pc (by rw [hpc]; exact fun _ => SendPc.noConfusion)]
      rfl

/-- Atomic calls follow a handler that starts a write. -/
theorem Whole.follows_handlerStart (h : s.Whole) (hs : s.step .handlerStart = some t) :
    Follows s .handlerStart t := by
  obtain ⟨hr, hs⟩ := Option.ite_none_right_eq_some.mp hs
  obtain ⟨u, hu, rfl⟩ := Option.map_eq_some_iff.mp hs
  obtain ⟨front, rest, hq, rfl⟩ := startFront_cases hu
  refine follows_of_eq (h.atomic_startFront (by omega) hq ?_) (List.append_nil _)
  rw [Sender.startFront, hq]

/-- Atomic calls follow a write of some bytes. -/
theorem Whole.follows_writeSome (h : s.Whole) {i k : Nat}
    (hs : s.step (.writeSome i k) = some t) : Follows s (.writeSome i k) t := by
  obtain ⟨u, hu, rfl⟩ := Option.map_eq_some_iff.mp hs
  obtain ⟨op, hop, _, hsome⟩ := Sender.writeSome_cases hu
  obtain ⟨rfl, hw, _, _, front, rest, hq, _⟩ := h.writing_cases hop
  have hbefore : s.atomic = s.toSender :=
    atomic_of_owned (ne_of_front hq) (Or.inl (by rw [hw]; exact List.cons_ne_nil _ _))
  have hafter : atomic { s with toSender := u } = u := by
    refine atomic_of_owned ?_ (Or.inl ?_)
    · rw [hsome]
      exact ne_of_front hq
    · rw [hsome, hw]
      exact List.cons_ne_nil _ _
  refine ⟨[.writeSome 0 k], ?_, ?_⟩
  · rw [hbefore, hafter, run_cons, Sender.step, hu]
    rfl
  · have hsame : unsent { s with toSender := u } = s.unsent :=
      unsent_congr rfl (by rw [hsome]) rfl
    rw [hsame]
    exact List.append_nil _

/-- Atomic calls follow a write that completes. -/
theorem Whole.follows_completeWrite (h : s.Whole) {i : Nat} (hs : s.completeWrite i = some t) :
    Follows s (.complete i) t := by
  obtain ⟨op, hop, hrest, ht⟩ := completeWrite_cases hs
  obtain ⟨rfl, hw, _, hf, front, rest, hq, hnum⟩ := h.writing_cases hop
  have hbefore : s.atomic = s.toSender :=
    atomic_of_owned (ne_of_front hq) (Or.inl (by rw [hw]; exact List.cons_ne_nil _ _))
  have hdone : s.writing = [⟨front.number, []⟩] := by rw [hw, ← hnum, ← hrest]
  have htq : t.sendQueue = front :: rest := ht ▸ hq
  have htw : t.writing = [] := by
    rw [ht, hw]
    rfl
  have htc : t.completed ≠ 0 := by
    rw [ht]
    exact Nat.succ_ne_zero s.completed
  have hafter : t.atomic = s.toSender := by
    rw [atomic_of_completed htq htw (ht ▸ hf) htc, ← hdone, ht]
  refine follows_of_eq (hafter.trans hbefore.symm) ?_
  rw [unsent_congr (by rw [ht]) (htq.trans hq.symm) (by rw [ht])]
  exact List.append_nil _

/-- Atomic calls follow a write that fails. -/
theorem Whole.follows_fail (h : s.Whole) {i : Nat} (hs : s.step (.fail i) = some t) :
    Follows s (.fail i) t := by
  obtain ⟨u, hu, rfl⟩ := Option.map_eq_some_iff.mp hs
  obtain ⟨op, hop, hfail⟩ := Sender.handler_of_fail hu
  obtain ⟨rfl, hw, _, _, front, rest, hq, _⟩ := h.writing_cases hop
  have hbefore : s.atomic = s.toSender :=
    atomic_of_owned (ne_of_front hq) (Or.inl (by rw [hw]; exact List.cons_ne_nil _ _))
  have hqueue : u.sendQueue = s.sendQueue := by
    rw [hfail]
    rfl
  have hafter : atomic { s with toSender := u, failed := s.failed + 1 } = u :=
    atomic_of_owned (hqueue ▸ ne_of_front hq) (Or.inr (Nat.succ_ne_zero s.failed))
  refine ⟨[.fail 0], ?_, ?_⟩
  · rw [hbefore, hafter, run_cons, Sender.step, hu]
    rfl
  · have hsame : unsent { s with toSender := u, failed := s.failed + 1 } = s.unsent :=
      unsent_congr rfl hqueue rfl
    rw [hsame]
    exact List.append_nil _

/-- The atomic handler of the only write in flight, which has nothing left. -/
theorem complete_of_done {u : Sender} {number : Nat} (hw : u.writing = [⟨number, []⟩]) :
    u.complete 0 = some (Sender.startFront { u with
      writing := [], sendQueue := u.sendQueue.tail }) := by
  simp only [Sender.complete, hw, List.getElem?_cons_zero, Option.bind_some, if_pos,
    Sender.writeHandler, Bool.false_eq_true, ite_false, List.eraseIdx_cons_zero]
  cases hq : u.sendQueue.tail with
  | nil => simp [Sender.startFront]
  | cons front rest => simp

/-- What a pop leaves, of the send half and of what it stands for. -/
theorem Whole.pop_cases (h : s.Whole) (hs : s.step .handlerPop = some t) :
    ∃ front rest, s.sendQueue = front :: rest ∧ s.writing = [] ∧
      s.atomic = { s.toSender with writing := [⟨front.number, []⟩] } ∧
      t.atomic = t.due.startFront ∧ t.toSender = { s.toSender with sendQueue := rest } ∧
      t.pc = s.pc ∧ t.message = s.message ∧ t.fresh = s.fresh := by
  obtain ⟨hc, hs⟩ := Option.ite_none_right_eq_some.mp hs
  obtain ⟨hw, hone, hf, front, rest, hq⟩ := h.completed_cases hc
  have hc' : s.completed - 1 = 0 := by omega
  cases hs
  refine ⟨front, rest, hq, hw, atomic_of_completed hq hw hf hc.ne', ?_, ?_, rfl, rfl, rfl⟩
  · exact atomic_of_rest hw hf hc'
  · rw [hq, List.tail_cons]

/-- A pop that empties the queue under a call that has seen it busy: the call takes effect,
then the handler, which starts the write of its node. -/
theorem Whole.follows_emptied (h : s.Whole) (hs : s.step .handlerPop = some t)
    (hahead : t.Ahead) : Follows s .handlerPop t := by
  obtain ⟨front, rest, hq, hw, hbefore, hafter, ht, hpc, hm, hfresh⟩ := h.pop_cases hs
  obtain ⟨hcoming, hempty⟩ := hahead
  have hrest : rest = [] := by rwa [ht] at hempty
  subst hrest
  obtain ⟨queSize, hsize, hpos, hcap⟩ := sized_of_coming (hpc ▸ hcoming)
  have hqueue : s.atomic.sendQueue = s.sendQueue := by
    rw [sendQueue_atomic, due_of_ne (ne_of_front hq)]
  have hfits : s.sendQueue.length ≤ maxSendQue := (h.sized queSize hsize).trans hcap
  have hdue : t.due = { s.toSender with
      sendQueue := [⟨s.accepted.length, s.message.node s.fresh⟩]
      accepted := s.accepted ++ [s.message] } := by
    rw [due, if_pos ⟨hcoming, hempty⟩, ht, hm, hfresh]
  refine ⟨[.send s.message s.fresh, .complete 0], ?_, ?_⟩
  · rw [run_cons, Sender.step, Sender.send_of_ne (hqueue ▸ hfits) (hqueue ▸ ne_of_front hq),
      Option.bind_some, run_cons, Sender.step, complete_of_done (by rw [hbefore]), hafter, hdue,
      hbefore]
    simp [hq, hw]
  · have hopen : s.Open := (open_of_sized hsize).mpr ⟨hcap, Or.inr (ne_of_front hq)⟩
    have hdone : ¬ t.Open := fun ho =>
      ((open_of_sized (hpc.trans hsize)).mp ho).2.elim hpos.ne' fun hne => hne hempty
    rw [unsent_of_open hopen, unsent_of_not_open hdone]
    rfl

/-- A handler takes effect where it pops. -/
theorem Whole.follows_handlerPop (h : s.Whole) (hs : s.step .handlerPop = some t) :
    Follows s .handlerPop t := by
  by_cases hahead : t.Ahead
  · exact h.follows_emptied hs hahead
  obtain ⟨front, rest, hq, hw, hbefore, hafter, ht, hpc, hm, _⟩ := h.pop_cases hs
  have hdue : t.due = { s.toSender with sendQueue := rest } := by rw [due, if_neg hahead, ht]
  refine ⟨[.complete 0], ?_, ?_⟩
  · rw [run_cons, Sender.step, complete_of_done (by rw [hbefore]), hafter, hdue, hbefore]
    simp [hq, hw]
  · have hopen : t.Open ↔ s.Open := by
      cases hs : s.pc with
      | sized queSize =>
        rw [open_of_sized hs, open_of_sized (hpc.trans hs)]
        refine and_congr_right fun hcap => ?_
        refine iff_of_true ?_ (Or.inr (ne_of_front hq))
        by_contra hneither
        obtain ⟨hpos, hempty⟩ := not_or.mp hneither
        refine hahead ⟨?_, not_not.mp hempty⟩
        rw [hpc, hs]
        exact ⟨Nat.pos_of_ne_zero hpos, hcap⟩
      | idle | pushed _ | starting => rw [Open, Open, hpc, hs]
    have hsame : t.unsent = s.unsent := by
      rw [unsent, unsent, hm]
      exact if_congr hopen rfl rfl
    rw [hsame]
    exact List.append_nil _

/-- Atomic calls follow every step. -/
theorem Whole.follows (h : s.Whole) {a : SplitAction} (hs : s.step a = some t) :
    Follows s a t := by
  cases a with
  | call m fresh =>
    obtain ⟨hpc, ⟨⟩⟩ := Option.ite_none_right_eq_some.mp hs
    exact follows_call hpc m fresh
  | send => exact h.follows_sendStep hs
  | writeSome i k => exact h.follows_writeSome hs
  | complete i => exact h.follows_completeWrite hs
  | fail i => exact h.follows_fail hs
  | handlerPop => exact h.follows_handlerPop hs
  | handlerTest =>
    obtain ⟨_, hs⟩ := Option.ite_none_right_eq_some.mp hs
    split at hs <;> cases hs <;> exact follows_of_eq rfl (List.append_nil _)
  | handlerStart => exact h.follows_handlerStart hs

/-- Between two calls the states are one. -/
theorem Whole.atomic_of_quiet (h : s.Whole) (hquiet : s.Quiet) :
    s.atomic = s.toSender ∧ s.unsent = [] := by
  obtain ⟨hpc, hc, hp, hr⟩ := hquiet
  have hcoming : ¬ s.pc.PushComing := by
    rw [hpc]
    exact id
  have hdue : s.due = s.toSender := due_of_not_coming hcoming
  refine ⟨?_, unsent_of_pc (by rw [hpc]; exact fun _ => SendPc.noConfusion)⟩
  by_cases howned : s.writing ≠ [] ∨ s.failed ≠ 0
  · rw [atomic, if_pos howned, hdue]
  · obtain ⟨hw, hf⟩ := not_or.mp howned
    have hempty : s.sendQueue = [] := by
      by_contra hq
      have hserved := h.inv.served (Or.inl fun hnil => hq (List.map_eq_nil_iff.mp hnil))
      rw [writers_handshake, hpc, not_not.mp hw, hc, not_not.mp hf, hr] at hserved
      exact hserved.elim (by simp) fun hpos => absurd hp hpos.ne'
    rw [atomic_of_rest (not_not.mp hw) (not_not.mp hf) hc, hdue, Sender.startFront, hempty]

/-- What has reached the socket is the same at every moment, and atomic calls are ahead of
the steps, if at all, by a node pushed and a write started. -/
theorem atomic_ahead (s : SplitSender) : s.atomic.wire = s.wire ∧ s.atomic.isStop = s.isStop ∧
    s.accepted <+: s.atomic.accepted ∧ s.started <+: s.atomic.started := by
  have hdue : s.due.wire = s.wire ∧ s.due.isStop = s.isStop ∧
      s.accepted <+: s.due.accepted ∧ s.started <+: s.due.started := by
    unfold due
    split
    · exact ⟨rfl, rfl, List.prefix_append _ _, List.prefix_rfl⟩
    · exact ⟨rfl, rfl, List.prefix_rfl, List.prefix_rfl⟩
  unfold atomic
  split
  · exact hdue
  · split
    · exact hdue
    · unfold Sender.startFront
      split
      · exact hdue
      · exact ⟨hdue.1, hdue.2.1, hdue.2.2.1, hdue.2.2.2.trans (List.prefix_append _ _)⟩

/-- The calls of a schedule with one more step. -/
theorem calls_snoc (as : List SplitAction) (a : SplitAction) :
    calls (as ++ [a]) = calls as ++ calls [a] := List.filterMap_append

/-- The sends of two schedules in turn. -/
theorem sends_append (bs cs : List SendAction) : sends (bs ++ cs) = sends bs ++ sends cs :=
  List.filterMap_append

/-- Every harmless run is made of whole calls. -/
theorem exists_atomic_of_run {as : List SplitAction} (hok : Along step Harmless init as)
    (h : run step init as = some s) :
    ∃ bs, run (Sender.step maxSendQue) Sender.init bs = some s.atomic ∧ s.Whole ∧
      calls as = sends bs ++ s.unsent := by
  have hrun : ∃ bs t, run (Sender.step maxSendQue) Sender.init bs = some t ∧
      (s.Whole ∧ t = s.atomic ∧ calls as = sends bs ++ s.unsent) := by
    refine exists_run_of_follows (Sender.step maxSendQue)
      (R := fun as s bs t => s.Whole ∧ t = s.atomic ∧ calls as = sends bs ++ s.unsent)
      ⟨whole_init, rfl, rfl⟩ ?_ hok h
    rintro as s bs _ a t ⟨hwhole, rfl, hcalls⟩ hC hs
    obtain ⟨cs, hcs, hunsent⟩ := hwhole.follows hs
    refine ⟨cs, _, hcs, hwhole.step hC hs, rfl, ?_⟩
    rw [calls_snoc, hcalls, List.append_assoc, hunsent, sends_append, List.append_assoc]
  obtain ⟨bs, _, hbs, hwhole, rfl, hcalls⟩ := hrun
  exact ⟨bs, hbs, hwhole, hcalls⟩

/-- Sends and write handlers are atomic while the emptiness tests are harmless. In every such
run, whatever fails, there is a run of whole calls with the same calls of `send` in their order,
up to one that is running and has yet to take effect, which has put the same bytes on the
socket, has closed the session if and only if it is closed, and has accepted and started what
the steps have, if not more; and whenever no call is in the middle of its steps, it has led to
the very same state. -/
theorem refines_atomic (as : List SplitAction) (s : SplitSender)
    (h : run step init as = some s) (hok : Along step Harmless init as) :
    ∃ bs t, run (Sender.step maxSendQue) Sender.init bs = some t ∧
      sends bs <+: calls as ∧ (calls as).length ≤ (sends bs).length + 1 ∧
      (s.pc = .idle → sends bs = calls as) ∧
      t.wire = s.wire ∧ t.isStop = s.isStop ∧ s.accepted <+: t.accepted ∧
      s.started <+: t.started ∧ (s.Quiet → t = s.toSender) := by
  obtain ⟨bs, hbs, hwhole, hcalls⟩ := exists_atomic_of_run hok h
  obtain ⟨hwire, hstop, haccepted, hstarted⟩ := s.atomic_ahead
  have hone : s.unsent.length ≤ 1 := by
    unfold unsent
    split <;> simp
  refine ⟨bs, s.atomic, hbs, ⟨_, hcalls.symm⟩, ?_, ?_, hwire, hstop, haccepted, hstarted, ?_⟩
  · rw [hcalls, List.length_append]
    omega
  · intro hpc
    rw [hcalls, unsent_of_pc (by rw [hpc]; exact fun _ => SendPc.noConfusion), List.append_nil]
  · exact fun hquiet => (hwhole.atomic_of_quiet hquiet).1

/-- The second message's `send` reads the size before the first message is popped, which
empties the queue, and pushes before the handler tests it. -/
private def pushedBehindPop : List SplitAction :=
  [.call ⟨.idTestMsgRsp, [104]⟩ fun _ => 3, .send, .send, .send, .writeSome 0 7,
    .call ⟨.idTestMsgRsp, [105, 106]⟩ fun _ => 4, .complete 0, .handlerPop, .send, .handlerTest,
    .send, .handlerStart, .writeSome 0 5]

/-- A message whose push comes behind the pop of the one before is sent all the same. -/
theorem refines_atomic_behind_pop :
    ∃ s, run step init pushedBehindPop = some s ∧ s.started = [0, 1] ∧
      ∃ bs, run (Sender.step maxSendQue) Sender.init bs = some s.toSender ∧
        sends bs = [⟨.idTestMsgRsp, [104]⟩, ⟨.idTestMsgRsp, [105, 106]⟩] := by
  have hrun : (run step init pushedBehindPop).any fun s => s.Quiet ∧ s.started = [0, 1] := by
    decide +kernel
  have hok : Along step Harmless init pushedBehindPop := by decide +kernel
  obtain ⟨s, hs, hlast⟩ := (Option.any_eq_true _ _).mp hrun
  obtain ⟨hquiet, hstarted⟩ := of_decide_eq_true hlast
  obtain ⟨bs, t, ht, _, _, hsends, _, _, _, _, hsame⟩ := refines_atomic pushedBehindPop s hs hok
  exact ⟨s, hs, hstarted, bs, hsame hquiet ▸ ht, hsends hquiet.1⟩

end SplitSender

end ResourceServer
