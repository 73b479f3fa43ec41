import Mathlib.Data.List.Range
import ResourceServer.Framing.Frame
import ResourceServer.Native.Send

/-!
# The socket follows the send history

With `send` and `write_handler` atomic, the queue is what the socket still owes
to the accepted messages: its front is being written, the rest waits. Nothing is
written out of order or twice, and after a failed write the front stays queued
for ever, so that no later call starts a write.
-/

namespace ResourceServer

open Transition

/-- The frame of a message, whatever its length. -/
def Message.frame (m : Message) : Bytes :=
  hostToNetworkShort m.id.enumToInt ++ hostToNetworkLong (BitVec.ofNat 32 m.data.length) ++ m.data

/-- The message fits the signed length field. -/
def Message.Short (m : Message) : Prop := m.data.length < 2 ^ 31

/-- The node of a short message holds its frame. -/
theorem Message.buffer_node (mem : Nat → Byte) {m : Message} (h : m.Short) :
    (m.node mem).buffer = m.frame := by
  rw [Short] at h
  have hlt : m.data.length < 2 ^ 32 := by omega
  have hfit : m.data.length + headTotalLen + 1 < 2 ^ 32 := by
    rw [headTotalLen]
    omega
  exact SendNode.buffer_new mem ⟨m.id, m.data, hlt⟩ hfit

/-- The frames of short messages are what their nodes hold. -/
theorem Message.flatMap_buffer (mem : Nat → Byte) {ms : List Message} (h : ∀ m ∈ ms, m.Short) :
    (ms.flatMap fun m => (m.node mem).buffer) = ms.flatMap frame :=
  List.flatMap_congr fun m hm => buffer_node mem (h m hm)

/-- The side condition on steps: only short messages are sent. -/
def ShortSend (_ : Sender) : SendAction → Prop
  | .send m _ => m.Short
  | _ => True

namespace Sender

/-- The bytes that are still to be written for the queued messages. -/
def owed (s : Sender) : Bytes :=
  s.writing.flatMap WriteOp.rest ++ s.sendQueue.tail.flatMap (·.node.buffer)

/-- The invariant of the send half. -/
structure Inv (s : Sender) : Prop where
  /-- The queue is the accepted nodes that were not popped, and of these the front was started. -/
  queue_eq : ∃ p, s.sendQueue.map SendPtr.number = List.range' p s.sendQueue.length ∧
    p + s.sendQueue.length = s.accepted.length ∧
    s.started = List.range (p + (s.sendQueue.take 1).length)
  /-- While no write has failed, the front is in flight. -/
  writing_eq : s.isStop = false →
    s.writing.map WriteOp.number = (s.sendQueue.take 1).map SendPtr.number
  /-- While no write has failed, the socket and what is owed to it are all accepted frames. -/
  wire_eq : s.isStop = false → s.wire ++ s.owed = s.accepted.flatMap Message.frame
  wire_prefix : s.wire <+: s.accepted.flatMap Message.frame
  /-- A failed write leaves its node at the front and nothing in flight. -/
  stopped : s.isStop = true → s.writing = [] ∧ s.sendQueue ≠ []
  short : ∀ m ∈ s.accepted, m.Short

/-- Nothing has been sent by a new sender. -/
theorem inv_init : Inv init where
  queue_eq := ⟨0, rfl, rfl, rfl⟩
  writing_eq _ := rfl
  wire_eq _ := rfl
  wire_prefix := List.prefix_rfl
  stopped h := Bool.noConfusion h
  short _ hm := absurd hm List.not_mem_nil

/-- A send that finds the queue empty starts the write of its own node. -/
theorem send_nil {bound : Nat} {mem : Nat → Byte} {m : Message} {s : Sender}
    (hq : s.sendQueue = []) :
    s.send bound mem m = { s with
      sendQueue := [⟨s.accepted.length, m.node mem⟩]
      accepted := s.accepted ++ [m]
      writing := s.writing ++ [⟨s.accepted.length, (m.node mem).buffer⟩]
      started := s.started ++ [s.accepted.length] } := by
  rw [send, hq, List.length_nil, if_neg (Nat.not_lt_zero bound), if_neg (Nat.lt_irrefl 0)]
  rfl

/-- A send that finds the queue busy leaves its node to the write handler. -/
theorem send_of_ne {bound : Nat} {mem : Nat → Byte} {m : Message} {s : Sender}
    (hb : s.sendQueue.length ≤ bound) (hq : s.sendQueue ≠ []) :
    s.send bound mem m = { s with
      sendQueue := s.sendQueue ++ [⟨s.accepted.length, m.node mem⟩]
      accepted := s.accepted ++ [m] } := by
  rw [send, if_neg (Nat.not_lt.mpr hb), if_pos (List.length_pos_iff.mpr hq)]

/-- A send that finds the queue over its bound changes nothing. -/
theorem send_of_lt {bound : Nat} {mem : Nat → Byte} {m : Message} {s : Sender}
    (hb : bound < s.sendQueue.length) : s.send bound mem m = s := by
  rw [send, if_pos hb]

/-- A send within the bound is accepted. -/
theorem accepted_send {bound : Nat} {mem : Nat → Byte} {m : Message} {s : Sender}
    (hb : s.sendQueue.length ≤ bound) : (s.send bound mem m).accepted = s.accepted ++ [m] := by
  by_cases hq : s.sendQueue = []
  · rw [send_nil hq]
  · rw [send_of_ne hb hq]

/-- The message a step adds to the accepted ones: that of a `send` that finds the queue
within its bound. -/
def admitted (bound : Nat) (s : Sender) (a : SendAction) (_ : Sender) : List Message :=
  match a with
  | .send m _ => if s.sendQueue.length ≤ bound then [m] else []
  | .writeSome _ _ | .complete _ | .fail _ => []

/-- The frames of the accepted messages when one more is accepted. -/
theorem flatMap_frame_snoc (ms : List Message) (m : Message) :
    (ms ++ [m]).flatMap Message.frame = ms.flatMap Message.frame ++ m.frame := by
  rw [List.flatMap_append, List.flatMap_singleton]

/-- A send of a short message keeps the invariant. -/
theorem Inv.send {s : Sender} (h : s.Inv) (bound : Nat) (mem : Nat → Byte) {m : Message}
    (hm : m.Short) : (s.send bound mem m).Inv := by
  have hshort : ∀ m' ∈ s.accepted ++ [m], m'.Short := by
    intro m' hm'
    rcases List.mem_append.mp hm' with hold | hnew
    · exact h.short m' hold
    · exact List.mem_singleton.mp hnew ▸ hm
  have hprefix : s.wire <+: (s.accepted ++ [m]).flatMap Message.frame := by
    rw [flatMap_frame_snoc]
    exact h.wire_prefix.trans (List.prefix_append _ _)
  obtain ⟨p, hnum, hlen, hstarted⟩ := h.queue_eq
  by_cases hb : bound < s.sendQueue.length
  · rw [send_of_lt hb]
    exact h
  by_cases hq : s.sendQueue = []
  · have hrun : s.isStop = false := by
      by_contra hstop
      exact (h.stopped (by simpa using hstop)).2 hq
    have hidle := h.writing_eq hrun
    have hall := h.wire_eq hrun
    rw [hq, List.take_nil, List.map_nil, List.map_eq_nil_iff] at hidle
    rw [owed, hidle, hq] at hall
    rw [hq, List.length_nil, Nat.add_zero] at hlen
    rw [hq, List.take_nil, List.length_nil, Nat.add_zero, hlen] at hstarted
    rw [send_nil hq, hidle]
    constructor
    · refine ⟨s.accepted.length, rfl, ?_, ?_⟩
      · rw [List.length_append]
        rfl
      · rw [hstarted]
        exact List.range_succ.symm
    · exact fun _ => rfl
    · intro _
      rw [flatMap_frame_snoc, ← hall, owed]
      simp [Message.buffer_node mem hm]
    · exact hprefix
    · intro hstop
      rw [hrun] at hstop
      contradiction
    · exact hshort
  · obtain ⟨front, rest, hfront⟩ := List.exists_cons_of_ne_nil hq
    rw [send_of_ne (Nat.le_of_not_lt hb) hq]
    constructor
    · refine ⟨p, ?_, ?_, ?_⟩
      · rw [List.map_append, hnum, List.length_append, List.length_singleton,
          List.range'_concat, Nat.one_mul, hlen]
        rfl
      · simp only [List.length_append, List.length_singleton]
        omega
      · rw [hstarted, hfront]
        rfl
    · intro hrun
      rw [h.writing_eq hrun, hfront]
      rfl
    · intro hrun
      have hall := h.wire_eq hrun
      rw [owed, hfront] at hall
      rw [flatMap_frame_snoc, ← hall, owed, hfront]
      simp [Message.buffer_node mem hm]
    · exact hprefix
    · intro hstop
      exact ⟨(h.stopped hstop).1, List.append_ne_nil_of_left_ne_nil hq _⟩
    · exact hshort

/-- The only write in flight is that of the front. -/
theorem Inv.writing_cases {s : Sender} (h : s.Inv) {i : Nat} {op : WriteOp}
    (hop : s.writing[i]? = some op) :
    s.isStop = false ∧ i = 0 ∧ s.writing = [op] ∧
      ∃ front rest, s.sendQueue = front :: rest ∧ op.number = front.number := by
  have hne : s.writing ≠ [] := by
    intro hnil
    rw [hnil, List.getElem?_nil] at hop
    contradiction
  have hrun : s.isStop = false := by
    by_contra hstop
    exact hne (h.stopped (by simpa using hstop)).1
  have hw := h.writing_eq hrun
  cases hq : s.sendQueue with
  | nil =>
    rw [hq, List.take_nil, List.map_nil, List.map_eq_nil_iff] at hw
    exact absurd hw hne
  | cons front rest =>
    rw [hq] at hw
    obtain ⟨op', hop', hnum⟩ := List.map_eq_singleton_iff.mp hw
    rw [hop'] at hop ⊢
    obtain ⟨hi, rfl⟩ := List.getElem?_eq_some_iff.mp hop
    have hzero : i = 0 := Nat.lt_one_iff.mp hi
    subst hzero
    exact ⟨hrun, rfl, rfl, front, rest, rfl, hnum⟩

/-- A write of some bytes keeps the invariant. -/
theorem Inv.writeSome {s t : Sender} {i k : Nat} (h : s.Inv) (hs : s.writeSome i k = some t) :
    t.Inv := by
  obtain ⟨op, hop, _, rfl⟩ := writeSome_cases hs
  obtain ⟨hrun, rfl, hw, front, rest, hq, hnum⟩ := h.writing_cases hop
  have hall := h.wire_eq hrun
  rw [owed, hw] at hall
  have hbytes : s.wire ++ op.rest.take k ++ (op.rest.drop k ++
      s.sendQueue.tail.flatMap (·.node.buffer)) = s.accepted.flatMap Message.frame := by
    rw [← hall, List.append_assoc, ← List.append_assoc (op.rest.take k), List.take_append_drop]
    simp
  constructor
  · exact h.queue_eq
  · intro _
    rw [hw, hq]
    simp [hnum]
  · intro _
    rw [← hbytes, owed, hw]
    simp
  · exact ⟨_, hbytes⟩
  · intro hstop
    rw [hrun] at hstop
    contradiction
  · exact h.short

/-- What a completed write leaves: the queue without its front, and the next node in flight. -/
theorem complete_cases {s t : Sender} {i : Nat} (h : s.Inv) (hs : s.complete i = some t) :
    ∃ front rest op, s.isStop = false ∧ s.sendQueue = front :: rest ∧ s.writing = [op] ∧
      op.rest = [] ∧ t = { s with
        sendQueue := rest
        writing := (rest.take 1).map fun ptr => ⟨ptr.number, ptr.node.buffer⟩
        started := s.started ++ (rest.take 1).map SendPtr.number } := by
  obtain ⟨op, hop, hrest, rfl⟩ := handler_of_complete hs
  obtain ⟨hrun, rfl, hw, front, rest, hq, _⟩ := h.writing_cases hop
  refine ⟨front, rest, op, hrun, hq, hw, hrest, ?_⟩
  rw [writeHandler]
  cases rest with
  | nil => simp [hq, hw]
  | cons next rest => simp [hq, hw, startFront]

/-- A write that completes keeps the invariant. -/
theorem Inv.complete {s t : Sender} {i : Nat} (h : s.Inv) (hs : s.complete i = some t) :
    t.Inv := by
  obtain ⟨front, rest, op, hrun, hq, hw, hrest, rfl⟩ := complete_cases h hs
  obtain ⟨p, hnum, hlen, hstarted⟩ := h.queue_eq
  rw [hq, List.map_cons, List.length_cons, List.range'_succ] at hnum
  rw [hq, List.length_cons] at hlen
  rw [hq] at hstarted
  have hnum' := (List.cons.inj hnum).2
  have hall := h.wire_eq hrun
  rw [owed, hw, hq] at hall
  constructor
  · refine ⟨p + 1, hnum', ?_, ?_⟩
    · simp only
      omega
    · rw [hstarted]
      cases rest with
      | nil => simp
      | cons next rest =>
        rw [List.map_cons, List.length_cons, List.range'_succ] at hnum'
        simp [(List.cons.inj hnum').1, List.range_succ]
  · intro _
    simp [Function.comp_def]
  · intro _
    rw [← hall, owed]
    cases rest with
    | nil => simp [hrest]
    | cons next rest => simp [hrest]
  · exact h.wire_prefix
  · intro hstop
    rw [hrun] at hstop
    contradiction
  · exact h.short

/-- A write that fails keeps the invariant. -/
theorem Inv.fail {s t : Sender} {i : Nat} (h : s.Inv) (hs : s.fail i = some t) : t.Inv := by
  obtain ⟨op, hop, rfl⟩ := handler_of_fail hs
  obtain ⟨_, rfl, hw, front, rest, hq, _⟩ := h.writing_cases hop
  rw [writeHandler, if_pos rfl, hw]
  constructor
  · exact h.queue_eq
  · exact fun hrun => Bool.noConfusion hrun
  · exact fun hrun => Bool.noConfusion hrun
  · exact h.wire_prefix
  · intro _
    refine ⟨rfl, ?_⟩
    change s.sendQueue ≠ []
    rw [hq]
    exact List.cons_ne_nil _ _
  · exact h.short

/-- Every step that sends short messages only keeps the invariant. -/
theorem Inv.step {s t : Sender} {bound : Nat} {a : SendAction} (h : s.Inv) (hok : ShortSend s a)
    (hs : s.step bound a = some t) : t.Inv := by
  cases a with
  | send m mem =>
    cases hs
    exact h.send bound mem hok
  | writeSome i k => exact h.writeSome hs
  | complete i => exact h.complete hs
  | fail i => exact h.fail hs

/-- The invariant along every run that sends short messages only. -/
theorem inv_of_run {bound : Nat} {as : List SendAction} {s : Sender}
    (hok : ∀ m mem, SendAction.send m mem ∈ as → m.Short)
    (h : run (Sender.step bound) init as = some s) : s.Inv := by
  refine run_invariant_along inv_init (fun _ _ _ hs hC ht => hs.step hC ht) (along_of_mem ?_ _) h
  intro a ha _
  cases a with
  | send m mem => exact hok m mem ha
  | writeSome i k | complete i | fail i => trivial

/-- While no write has failed, the queue is busy exactly while a write is in flight. -/
theorem Inv.writing_iff {s : Sender} (h : s.Inv) (hrun : s.isStop = false) :
    s.writing ≠ [] ↔ s.sendQueue ≠ [] := by
  have hw := h.writing_eq hrun
  rw [← not_iff_not, not_not, not_not, ← List.map_eq_nil_iff, hw, List.map_eq_nil_iff,
    List.take_eq_nil_iff]
  simp

/-- While no write has failed, an empty queue owes nothing. -/
theorem Inv.wire_of_drained {s : Sender} (h : s.Inv) (hrun : s.isStop = false)
    (hq : s.sendQueue = []) : s.wire = s.accepted.flatMap Message.frame := by
  have hw := h.writing_eq hrun
  have hall := h.wire_eq hrun
  rw [hq, List.take_nil, List.map_nil, List.map_eq_nil_iff] at hw
  rwa [owed, hw, hq, List.flatMap_nil, List.tail_nil, List.flatMap_nil, List.append_nil,
    List.append_nil] at hall

/-- The start of a write leaves what was accepted and written alone. -/
theorem frame_startFront (s : Sender) : s.startFront.isStop = s.isStop ∧
    s.startFront.wire = s.wire ∧ s.startFront.accepted = s.accepted := by
  unfold startFront
  split
  · exact ⟨rfl, rfl, rfl⟩
  · exact ⟨rfl, rfl, rfl⟩

/-- `send` neither stops the session nor puts anything on the socket itself. -/
theorem frame_send (bound : Nat) (mem : Nat → Byte) (m : Message) (s : Sender) :
    (s.send bound mem m).isStop = s.isStop ∧ (s.send bound mem m).wire = s.wire := by
  by_cases hb : bound < s.sendQueue.length
  · rw [send_of_lt hb]
    exact ⟨rfl, rfl⟩
  · by_cases hq : s.sendQueue = []
    · rw [send_nil hq]
      exact ⟨rfl, rfl⟩
    · rw [send_of_ne (Nat.le_of_not_lt hb) hq]
      exact ⟨rfl, rfl⟩

/-- A write handler stops the session on an error only, and neither accepts nor writes. -/
theorem frame_writeHandler (ec : Bool) (s : Sender) :
    (s.writeHandler ec).isStop = (ec || s.isStop) ∧ (s.writeHandler ec).wire = s.wire ∧
      (s.writeHandler ec).accepted = s.accepted := by
  cases ec with
  | true => exact ⟨rfl, rfl, rfl⟩
  | false =>
    simp only [writeHandler, Bool.false_eq_true, ite_false, Bool.false_or]
    split
    · exact ⟨rfl, rfl, rfl⟩
    · exact frame_startFront _

/-- A session is stopped if and only if one of its writes has failed. -/
theorem isStop_of_run {bound : Nat} {as : List SendAction} {s : Sender}
    (h : run (Sender.step bound) init as = some s) :
    s.isStop = true ↔ ∃ i, SendAction.fail i ∈ as := by
  refine run_history (P := fun as s => s.isStop = true ↔ ∃ i, SendAction.fail i ∈ as) ?_ ?_ h
  · simp [init]
  · intro as s a t hs ht
    cases a with
    | send m mem =>
      cases ht
      rw [(frame_send _ _ _ _).1]
      simpa using hs
    | writeSome i k =>
      obtain ⟨_, _, _, rfl⟩ := writeSome_cases ht
      simpa using hs
    | complete i =>
      obtain ⟨_, _, _, rfl⟩ := handler_of_complete ht
      rw [(frame_writeHandler _ _).1]
      simpa using hs
    | fail i =>
      obtain ⟨_, _, rfl⟩ := handler_of_fail ht
      rw [(frame_writeHandler _ _).1, Bool.true_or]
      exact iff_of_true rfl ⟨i, List.mem_append_right _ (List.mem_singleton_self _)⟩

/-- With a node queued and nothing in flight no step starts a write. -/
theorem started_of_stopped {bound : Nat} {s t : Sender} (hw : s.writing = [])
    (hq : s.sendQueue ≠ []) {as : List SendAction} (h : run (Sender.step bound) s as = some t) :
    t.started = s.started := by
  have hall : t.writing = [] ∧ t.sendQueue ≠ [] ∧ t.started = s.started := by
    refine run_invariant (P := fun t => t.writing = [] ∧ t.sendQueue ≠ [] ∧ t.started = s.started)
      ⟨hw, hq, rfl⟩ ?_ h
    rintro t a u ⟨htw, htq, hts⟩ hu
    cases a with
    | send m mem =>
      cases hu
      by_cases hb : bound < t.sendQueue.length
      · rw [send_of_lt hb]
        exact ⟨htw, htq, hts⟩
      · rw [send_of_ne (Nat.le_of_not_lt hb) htq]
        exact ⟨htw, List.append_ne_nil_of_left_ne_nil htq _, hts⟩
    | writeSome i k | complete i | fail i =>
      simp only [Sender.step, Sender.writeSome, Sender.complete, Sender.fail, htw,
        List.getElem?_nil, Option.bind_none, Option.map_none] at hu
      contradiction
  exact hall.2.2

/-- Nothing is started behind the first failed write. -/
theorem started_of_fail {bound : Nat} {bs cs : List SendAction} {i : Nat} {s t : Sender}
    (hok : ∀ m mem, SendAction.send m mem ∈ bs → m.Short)
    (ht : run (Sender.step bound) init (bs ++ [.fail i]) = some t)
    (hs : run (Sender.step bound) t cs = some s) : s.started = t.started := by
  have hinv : t.Inv := by
    refine inv_of_run ?_ ht
    intro m mem hm
    rcases List.mem_append.mp hm with hold | hnew
    · exact hok m mem hold
    · cases List.mem_singleton.mp hnew
  have hstop : t.isStop = true :=
    (isStop_of_run ht).mpr ⟨i, List.mem_append_right _ (List.mem_singleton_self _)⟩
  obtain ⟨hw, hq⟩ := hinv.stopped hstop
  exact started_of_stopped hw hq hs

/-- The accepted messages are, in their order, those sent while the queue was within its
bound. -/
theorem accepted_of_run {bound : Nat} {as : List SendAction} {s : Sender}
    (h : run (Sender.step bound) init as = some s) :
    s.accepted = outputs (Sender.step bound) (admitted bound) init as := by
  refine run_outputs (P := fun _ => True) accepted ?_ trivial h
  intro s a t _ ht
  refine ⟨trivial, ?_⟩
  cases a with
  | send m mem =>
    cases ht
    by_cases hb : s.sendQueue.length ≤ bound
    · rw [accepted_send hb, admitted, if_pos hb]
    · rw [send_of_lt (not_le.mp hb), admitted, if_neg hb, List.append_nil]
  | writeSome i k =>
    obtain ⟨_, _, _, rfl⟩ := writeSome_cases ht
    exact (List.append_nil _).symm
  | complete i =>
    obtain ⟨_, _, _, rfl⟩ := handler_of_complete ht
    exact (frame_writeHandler _ _).2.2.trans (List.append_nil _).symm
  | fail i =>
    obtain ⟨_, _, rfl⟩ := handler_of_fail ht
    exact (List.append_nil _).symm

/-- The socket refines the send history: the messages sent while the queue is within its
bound are accepted, and no others; writes are started one at a time, for the accepted
messages in their order and once each; the socket holds an initial part of their frames;
without a failed write the queue is non-empty exactly while a write is in flight, and
empty only when everything is written; and nothing is started behind a failed write. -/
theorem refines_history (bound : Nat) (mem : Nat → Byte) (as : List SendAction) (s : Sender)
    (hok : ∀ m fresh, SendAction.send m fresh ∈ as → m.Short)
    (h : run (Sender.step bound) init as = some s) :
    s.accepted = outputs (Sender.step bound) (admitted bound) init as ∧
      s.writing.length ≤ 1 ∧ (∃ n ≤ s.accepted.length, s.started = List.range n) ∧
      s.wire <+: (s.accepted.flatMap fun m => (m.node mem).buffer) ∧
      ((∀ i, SendAction.fail i ∉ as) → (s.writing ≠ [] ↔ s.sendQueue ≠ []) ∧
        (s.sendQueue = [] → s.wire = s.accepted.flatMap fun m => (m.node mem).buffer)) ∧
      ∀ bs i cs t, as = bs ++ .fail i :: cs →
        run (Sender.step bound) init (bs ++ [.fail i]) = some t → s.started = t.started := by
  have hinv := inv_of_run hok h
  have hrun : (∀ i, SendAction.fail i ∉ as) → s.isStop = false := by
    intro hnone
    by_contra hstop
    obtain ⟨i, hi⟩ := (isStop_of_run h).mp (by simpa using hstop)
    exact hnone i hi
  rw [Message.flatMap_buffer mem hinv.short]
  refine ⟨accepted_of_run h, ?_, ?_, hinv.wire_prefix, fun hnone => ⟨?_, ?_⟩, ?_⟩
  · cases hstop : s.isStop with
    | true =>
      rw [(hinv.stopped hstop).1]
      exact Nat.zero_le 1
    | false =>
      have hlen := congrArg List.length (hinv.writing_eq hstop)
      rw [List.length_map, List.length_map, List.length_take] at hlen
      omega
  · obtain ⟨p, _, hlen, hstarted⟩ := hinv.queue_eq
    refine ⟨_, ?_, hstarted⟩
    rw [List.length_take]
    omega
  · exact hinv.writing_iff (hrun hnone)
  · exact hinv.wire_of_drained (hrun hnone)
  · rintro bs i cs t rfl ht
    rw [List.append_cons, run_append_eq_some] at h
    obtain ⟨t', ht', hs⟩ := h
    cases ht.symm.trans ht'
    exact started_of_fail (fun m fresh hm => hok m fresh (List.mem_append_left _ hm)) ht hs

/-- Two messages sent back to back, the first written in two pieces. -/
private def twoSends : List SendAction :=
  [.send ⟨.idTestMsgRsp, [104, 105]⟩ fun _ => 7, .writeSome 0 5,
    .send ⟨.idTestMsgRsp, []⟩ fun _ => 9, .writeSome 0 3, .complete 0, .writeSome 0 6, .complete 0]

/-- Two messages are sent, the second without a body. -/
theorem refines_history_two :
    ∃ s, run (Sender.step maxSendQue) init twoSends = some s ∧
      s.wire = [3, 234, 0, 0, 0, 2, 104, 105, 3, 234, 0, 0, 0, 0] := by
  have hrun : (run (Sender.step maxSendQue) init twoSends).any fun s => s.sendQueue.isEmpty := by
    decide +kernel
  obtain ⟨s, hs, hq⟩ := (Option.any_eq_true _ _).mp hrun
  have hok : ∀ m fresh, SendAction.send m fresh ∈ twoSends → m.Short := by
    intro m fresh hm
    simp only [twoSends, List.mem_cons, SendAction.send.injEq, reduceCtorEq, List.not_mem_nil,
      or_false, false_or] at hm
    rcases hm with ⟨rfl, _⟩ | ⟨rfl, _⟩ <;> unfold Message.Short <;> decide
  have hnone : ∀ i, SendAction.fail i ∉ twoSends := by
    intro i hi
    simp [twoSends] at hi
  obtain ⟨haccepted, _, _, _, hdrained, _⟩ :=
    refines_history maxSendQue (fun _ => 0) twoSends s hok hs
  refine ⟨s, hs, ((hdrained hnone).2 (List.isEmpty_iff.mp hq)).trans ?_⟩
  rw [haccepted]
  decide +kernel

end Sender

end ResourceServer
