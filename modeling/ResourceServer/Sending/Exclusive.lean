import Mathlib.Data.List.Range
import ResourceServer.Native.Handshake

/-!
# When the send handshake is exclusive

The right to write passes between the queue's front in flight, the handler of a
completed write and a `send` that found the queue empty. It is lost or duplicated
at one step only, the emptiness test of `write_handler`: when it finds the queue
empty while a `send` that saw it non-empty has yet to push, or finds it non-empty
while somebody else already has the right.
-/

namespace ResourceServer

open Transition

/-- How many writes a `send` call at this step will start itself. -/
def SendPc.writes : SendPc → Nat
  | .pushed 0 | .starting => 1
  | .idle | .sized _ | .pushed (_ + 1) => 0

@[simp] theorem SendPc.writes_idle : SendPc.idle.writes = 0 := rfl

@[simp] theorem SendPc.writes_sized (queSize : Nat) : (SendPc.sized queSize).writes = 0 := rfl

@[simp] theorem SendPc.writes_pushed_zero : (SendPc.pushed 0).writes = 1 := rfl

@[simp] theorem SendPc.writes_pushed_succ (n : Nat) : (SendPc.pushed (n + 1)).writes = 0 := rfl

@[simp] theorem SendPc.writes_starting : SendPc.starting.writes = 1 := rfl

/-- A `send` call at this step saw a non-empty queue, and its node is not in it yet. -/
def SendPc.PushComing : SendPc → Prop
  | .sized queSize => 0 < queSize ∧ queSize ≤ maxSendQue
  | .idle | .pushed _ | .starting => False

instance : (pc : SendPc) → Decidable pc.PushComing
  | .sized _ => inferInstanceAs (Decidable (_ ∧ _))
  | .idle | .pushed _ | .starting => isFalse id

namespace Handshake

/-- How many parties have the right to write the front of the queue. -/
def writers (s : Handshake) : Nat :=
  s.writing.length + s.completed + s.resuming + s.send.writes

/-- The emptiness test of a handler does no harm: finding the queue empty, it is
not the last to test before the push of a `send` that saw the queue non-empty;
finding it non-empty, nobody else has the right to write. -/
def Harmless (s : Handshake) : HandshakeAction → Prop
  | .handlerTest =>
    (s.sendQueue = [] → s.send.PushComing → 1 < s.popped) ∧ (s.sendQueue ≠ [] → s.writers = 0)
  | _ => True

instance (s : Handshake) : (a : HandshakeAction) → Decidable (s.Harmless a)
  | .handlerTest => inferInstanceAs (Decidable (_ ∧ _))
  | .send | .complete _ | .handlerPop | .handlerStart => isTrue trivial

/-- The invariant of harmless runs. -/
structure Inv (s : Handshake) : Prop where
  writers_le : s.writers ≤ 1
  /-- The queue is the accepted nodes that were not popped. -/
  queue_eq : ∃ p, s.sendQueue = List.range' p s.sendQueue.length ∧
    p + s.sendQueue.length = s.accepted ∧
    s.started = List.range (p + s.writing.length + s.completed)
  /-- Whoever writes the front, or is about to, has a front. -/
  queue_pos : s.writers ≠ 0 → s.sendQueue ≠ []
  /-- A `send` that saw an empty queue still sees it empty. -/
  sized_zero : s.send = .sized 0 → s.sendQueue = []
  /-- A queued node, or one about to be pushed silently, has somebody to start its write. -/
  served : s.sendQueue ≠ [] ∨ s.send.PushComing → s.writers = 1 ∨ 0 < s.popped

/-- Nobody writes at first. -/
theorem inv_init : Inv init where
  writers_le := Nat.zero_le 1
  queue_eq := ⟨0, rfl, rfl, rfl⟩
  queue_pos h := absurd rfl h
  sized_zero _ := rfl
  served := by
    rintro (h | h)
    · exact absurd rfl h
    · exact h.elim

/-- The invariant is stronger than what the handshake is for. -/
theorem Inv.exclusive {s : Handshake} (h : s.Inv) : s.Exclusive := by
  obtain ⟨p, _, _, hstarted⟩ := h.queue_eq
  have hle := h.writers_le
  constructor
  · rw [writers] at hle
    omega
  · rw [hstarted]
    exact List.nodup_range
  · rintro ⟨hsend, hc, hp, hr⟩ hne
    have hs := h.served (Or.inl hne)
    rw [writers, hsend, hc, hp, hr, SendPc.writes_idle] at hs
    omega

/-- A started write names the front and leaves the right to write with it. -/
theorem startFront_eq_some {s t : Handshake} (h : s.startFront = some t) :
    ∃ node rest, s.sendQueue = node :: rest ∧
      t = { s with writing := s.writing ++ [node], started := s.started ++ [node] } := by
  obtain ⟨node, hnode, rfl⟩ := Option.map_eq_some_iff.mp h
  obtain ⟨rest, hrest⟩ := List.head?_eq_some_iff.mp hnode
  exact ⟨node, rest, hrest, rfl⟩

/-- A start by the only party that has the right to write keeps the queue and its
log in step. -/
theorem Inv.started_of_front {s : Handshake} (h : s.Inv) (hw : s.writing.length + s.completed = 0)
    {node : Nat} {rest : List Nat} (hq : s.sendQueue = node :: rest) :
    ∃ p, s.sendQueue = List.range' p s.sendQueue.length ∧
      p + s.sendQueue.length = s.accepted ∧
      s.started ++ [node] = List.range (p + (s.writing ++ [node]).length + s.completed) := by
  obtain ⟨p, hrange, hlen, hstarted⟩ := h.queue_eq
  have hnode : node = p := by
    rw [hq, List.length_cons, List.range'_succ] at hrange
    exact (List.cons.inj hrange).1
  refine ⟨p, hrange, hlen, ?_⟩
  have hp : p + s.writing.length + s.completed = p := by omega
  have hp' : p + (s.writing ++ [node]).length + s.completed = p + 1 := by
    rw [List.length_append, List.length_singleton]
    omega
  rw [hp', hstarted, hp, List.range_succ, hnode]

/-- A call reads the size of the queue. -/
theorem Inv.sized {s : Handshake} (h : s.Inv) (hsend : s.send = .idle) :
    Inv { s with send := .sized s.sendQueue.length } := by
  have hw : writers { s with send := .sized s.sendQueue.length } = s.writers := by
    rw [writers, writers, hsend, SendPc.writes_sized, SendPc.writes_idle]
  constructor
  · rw [hw]
    exact h.writers_le
  · exact h.queue_eq
  · rw [hw]
    exact h.queue_pos
  · intro hz
    exact List.length_eq_zero_iff.mp (SendPc.sized.inj hz)
  · rw [hw]
    rintro (hn | hn)
    · exact h.served (Or.inl hn)
    · exact h.served (Or.inl (List.ne_nil_of_length_pos hn.1))

/-- A call returns, or moves on, with the right to write unchanged. -/
theorem Inv.moved {s : Handshake} (h : s.Inv) {pc : SendPc} (hw : pc.writes = s.send.writes)
    (hc : ¬pc.PushComing) (hz : pc ≠ .sized 0) : Inv { s with send := pc } := by
  have hw' : writers { s with send := pc } = s.writers := by
    rw [writers, writers, hw]
  constructor
  · rw [hw']
    exact h.writers_le
  · exact h.queue_eq
  · rw [hw']
    exact h.queue_pos
  · exact fun h0 => absurd h0 hz
  · rw [hw']
    rintro (hn | hn)
    · exact h.served (Or.inl hn)
    · exact absurd hn hc

/-- A call pushes its node; it gets the right to write if it saw an empty queue. -/
theorem Inv.pushed {s : Handshake} (h : s.Inv) {queSize : Nat} (hsend : s.send = .sized queSize)
    (hcap : queSize ≤ maxSendQue) :
    Inv { s with
      sendQueue := s.sendQueue ++ [s.accepted], accepted := s.accepted + 1,
      send := .pushed queSize } := by
  have hold : s.writers = s.writing.length + s.completed + s.resuming := by
    rw [writers, hsend, SendPc.writes_sized, Nat.add_zero]
  have hone : writers { s with
      sendQueue := s.sendQueue ++ [s.accepted], accepted := s.accepted + 1,
      send := .pushed queSize } = if queSize = 0 then 1 else s.writers := by
    rw [writers, ← hold]
    cases queSize with
    | zero =>
      have hzero : s.writers = 0 := by
        by_contra hw
        exact h.queue_pos hw (h.sized_zero hsend)
      rw [hzero, SendPc.writes_pushed_zero, if_pos rfl]
    | succ n => rw [SendPc.writes_pushed_succ, if_neg (Nat.succ_ne_zero n), Nat.add_zero]
  obtain ⟨p, hrange, hlen, hstarted⟩ := h.queue_eq
  have hle := h.writers_le
  constructor
  · rw [hone]
    split <;> omega
  · refine ⟨p, ?_, ?_, hstarted⟩
    · rw [List.length_append, List.length_singleton, List.range'_concat, ← hrange, Nat.one_mul,
        hlen]
    · rw [List.length_append, List.length_singleton, ← Nat.add_assoc, hlen]
  · exact fun _ => List.append_ne_nil_of_right_ne_nil _ (List.cons_ne_nil _ _)
  · exact fun hz => SendPc.noConfusion hz
  · rw [hone]
    intro _
    split
    · exact Or.inl rfl
    · rename_i hq
      apply h.served
      rw [hsend]
      exact Or.inr ⟨Nat.pos_of_ne_zero hq, hcap⟩

/-- A call that found the queue empty starts the write of its node. -/
theorem Inv.sendStart {s t : Handshake} (h : s.Inv) (hsend : s.send = .starting)
    (ht : s.startFront = some t) : Inv { t with send := .idle } := by
  obtain ⟨node, rest, hq, rfl⟩ := startFront_eq_some ht
  have hle := h.writers_le
  rw [writers, hsend, SendPc.writes_starting] at hle
  have hone : writers { s with
      writing := s.writing ++ [node], started := s.started ++ [node], send := .idle } = 1 := by
    simp only [writers, List.length_append, List.length_singleton, SendPc.writes_idle]
    omega
  have hne : s.sendQueue ≠ [] := by
    rw [hq]
    exact List.cons_ne_nil _ _
  constructor
  · exact hone.le
  · exact h.started_of_front (by omega) hq
  · exact fun _ => hne
  · exact fun hz => SendPc.noConfusion hz
  · exact fun _ => Or.inl hone

/-- A step of a call keeps the invariant. -/
theorem Inv.send {s t : Handshake} (h : s.Inv) (hs : s.step .send = some t) : t.Inv := by
  cases hsend : s.send with
  | idle =>
    simp only [step, hsend, Option.some.injEq] at hs
    subst hs
    exact h.sized hsend
  | sized queSize =>
    simp only [step, hsend] at hs
    by_cases hcap : maxSendQue < queSize
    · rw [if_pos hcap, Option.some.injEq] at hs
      subst hs
      exact h.moved (by rw [hsend, SendPc.writes_sized, SendPc.writes_idle]) id SendPc.noConfusion
    · rw [if_neg hcap, Option.some.injEq] at hs
      subst hs
      exact h.pushed hsend (Nat.le_of_not_lt hcap)
  | pushed queSize =>
    simp only [step, hsend, Option.some.injEq] at hs
    subst hs
    cases queSize with
    | zero =>
      rw [if_neg (Nat.lt_irrefl 0)]
      exact h.moved (by rw [hsend]; rfl) id SendPc.noConfusion
    | succ n =>
      rw [if_pos (Nat.succ_pos n)]
      exact h.moved (by rw [hsend]; rfl) id SendPc.noConfusion
  | starting =>
    simp only [step, hsend] at hs
    obtain ⟨u, hu, rfl⟩ := Option.map_eq_some_iff.mp hs
    exact h.sendStart hsend hu

/-- A write that completes keeps the invariant. -/
theorem Inv.complete {s t : Handshake} {node : Nat} (h : s.Inv)
    (hs : s.step (.complete node) = some t) : t.Inv := by
  simp only [step] at hs
  by_cases hmem : node ∈ s.writing
  · rw [if_pos hmem, Option.some.injEq] at hs
    subst hs
    have hlen := List.length_erase_of_mem hmem
    have hpos := List.length_pos_of_mem hmem
    have hw : writers { s with
        writing := s.writing.erase node, completed := s.completed + 1 } = s.writers := by
      simp only [writers, hlen]
      omega
    obtain ⟨p, hrange, hacc, hstarted⟩ := h.queue_eq
    constructor
    · exact hw ▸ h.writers_le
    · refine ⟨p, hrange, hacc, ?_⟩
      rw [hstarted]
      congr 1
      simp only [hlen]
      omega
    · rw [hw]
      exact h.queue_pos
    · exact h.sized_zero
    · rw [hw]
      exact h.served
  · rw [if_neg hmem] at hs
    contradiction

/-- A handler that pops its node keeps the invariant. -/
theorem Inv.handlerPop {s t : Handshake} (h : s.Inv) (hs : s.step .handlerPop = some t) :
    t.Inv := by
  simp only [step] at hs
  by_cases hc : 0 < s.completed
  · rw [if_pos hc, Option.some.injEq] at hs
    subst hs
    have hle := h.writers_le
    rw [writers] at hle
    have hne : s.sendQueue ≠ [] := by
      apply h.queue_pos
      rw [writers]
      omega
    obtain ⟨p, hrange, hacc, hstarted⟩ := h.queue_eq
    obtain ⟨node, rest, hq⟩ := List.exists_cons_of_ne_nil hne
    rw [hq, List.length_cons] at hrange hacc
    rw [List.range'_succ] at hrange
    constructor
    · simp only [writers]
      omega
    · refine ⟨p + 1, ?_, ?_, ?_⟩
      · simp only [hq, List.tail_cons]
        exact (List.cons.inj hrange).2
      · simp only [hq, List.tail_cons]
        omega
      · rw [hstarted]
        congr 1
        simp only
        omega
    · intro hw
      simp only [writers] at hw
      omega
    · intro hz
      exact absurd (h.sized_zero hz) hne
    · exact fun _ => Or.inr (Nat.succ_pos _)
  · rw [if_neg hc] at hs
    contradiction

/-- A harmless test keeps the invariant. -/
theorem Inv.handlerTest {s t : Handshake} (h : s.Inv) (hok : s.Harmless .handlerTest)
    (hs : s.step .handlerTest = some t) : t.Inv := by
  simp only [step] at hs
  by_cases hp : 0 < s.popped
  · rw [if_pos hp] at hs
    by_cases hq : s.sendQueue = []
    · rw [if_pos (List.isEmpty_iff.mpr hq), Option.some.injEq] at hs
      subst hs
      constructor
      · exact h.writers_le
      · exact h.queue_eq
      · exact h.queue_pos
      · exact h.sized_zero
      · rintro (hn | hn)
        · exact absurd hq hn
        · have hlast := hok.1 hq hn
          apply Or.inr
          simp only
          omega
    · rw [if_neg (fun hempty => hq (List.isEmpty_iff.mp hempty)), Option.some.injEq] at hs
      subst hs
      have hone : writers { s with
          popped := s.popped - 1, resuming := s.resuming + 1 } = 1 := by
        have hzero := hok.2 hq
        simp only [writers] at hzero ⊢
        omega
      constructor
      · exact hone.le
      · exact h.queue_eq
      · exact fun _ => hq
      · exact h.sized_zero
      · exact fun _ => Or.inl hone
  · rw [if_neg hp] at hs
    contradiction

/-- A handler that starts a write keeps the invariant. -/
theorem Inv.handlerStart {s t : Handshake} (h : s.Inv) (hs : s.step .handlerStart = some t) :
    t.Inv := by
  simp only [step] at hs
  by_cases hr : 0 < s.resuming
  · rw [if_pos hr] at hs
    obtain ⟨u, hu, rfl⟩ := Option.map_eq_some_iff.mp hs
    obtain ⟨node, rest, hq, rfl⟩ := startFront_eq_some hu
    have hle := h.writers_le
    rw [writers] at hle
    have hw : writers { s with
        writing := s.writing ++ [node], started := s.started ++ [node],
        resuming := s.resuming - 1 } = s.writers := by
      simp only [writers, List.length_append, List.length_singleton]
      omega
    constructor
    · exact hw ▸ h.writers_le
    · exact h.started_of_front (by omega) hq
    · rw [hw]
      exact h.queue_pos
    · exact h.sized_zero
    · rw [hw]
      exact h.served
  · rw [if_neg hr] at hs
    contradiction

/-- A harmless step keeps the invariant. -/
theorem Inv.step {s t : Handshake} {a : HandshakeAction} (h : s.Inv) (hok : s.Harmless a)
    (hs : s.step a = some t) : t.Inv := by
  cases a with
  | send => exact h.send hs
  | complete node => exact h.complete hs
  | handlerPop => exact h.handlerPop hs
  | handlerTest => exact h.handlerTest hok hs
  | handlerStart => exact h.handlerStart hs

/-- The invariant along every harmless run. -/
theorem inv_of_run {as : List HandshakeAction} {s : Handshake}
    (hok : Along Handshake.step Harmless init as) (h : run Handshake.step init as = some s) :
    s.Inv :=
  run_invariant_along inv_init (fun _ _ _ hs hC ht => hs.step hC ht) hok h

/-! ## A harmful test does harm -/

/-- What follows when a handler that found the queue non-empty goes on. -/
theorem step_handlerStart {s : Handshake} {node : Nat} {rest : List Nat}
    (hq : s.sendQueue = node :: rest) (hr : 0 < s.resuming) :
    s.step .handlerStart = some { s with
      writing := s.writing ++ [node], started := s.started ++ [node],
      resuming := s.resuming - 1 } := by
  simp only [Handshake.step, startFront, hq, if_pos hr, List.head?_cons, Option.map_some]

/-- What follows when a `send` that found the queue empty goes on. -/
theorem step_send_starting {s : Handshake} {node : Nat} {rest : List Nat}
    (hq : s.sendQueue = node :: rest) (hsend : s.send = .starting) :
    s.step .send = some { s with
      writing := s.writing ++ [node], started := s.started ++ [node], send := .idle } := by
  simp only [Handshake.step, startFront, hq, hsend, List.head?_cons, Option.map_some]

/-- A node that is started twice is not written exclusively. -/
theorem not_exclusive_of_twice {s : Handshake} {l : List Nat} {node : Nat} (hmem : node ∈ l)
    (hs : s.started = l ++ [node]) : ¬s.Exclusive := by
  intro h
  have hnodup := h.nodup
  rw [hs, List.nodup_append] at hnodup
  exact hnodup.2.2 node hmem node (List.mem_singleton_self node) rfl

/-- A test that finds the queue empty ends its handler. -/
theorem step_handlerTest_nil {s : Handshake} (hq : s.sendQueue = []) (hp : 0 < s.popped) :
    s.step .handlerTest = some { s with popped := s.popped - 1 } := by
  simp only [Handshake.step, if_pos hp, if_pos (List.isEmpty_iff.mpr hq)]

/-- A test that finds the queue non-empty lets its handler go on. -/
theorem step_handlerTest_of_ne {s : Handshake} (hq : s.sendQueue ≠ []) (hp : 0 < s.popped) :
    s.step .handlerTest = some { s with popped := s.popped - 1, resuming := s.resuming + 1 } := by
  simp only [Handshake.step, if_pos hp, if_neg (mt List.isEmpty_iff.mp hq)]

/-- Behind a pop there is a test. -/
theorem popped_pos_of_handlerTest {s t : Handshake} (hs : s.step .handlerTest = some t) :
    0 < s.popped := by
  by_contra hp
  simp only [Handshake.step, if_neg hp] at hs
  contradiction

/-- A handler that leaves the queue to a `send` that leaves it to the handler
strands the node of that `send`. -/
theorem Inv.stuck {s t : Handshake} (h : s.Inv) (hq : s.sendQueue = [])
    (hpush : s.send.PushComing) (hp : s.popped ≤ 1) (hs : s.step .handlerTest = some t) :
    ∃ bs u, run Handshake.step t bs = some u ∧ ¬u.Exclusive := by
  rw [step_handlerTest_nil hq (popped_pos_of_handlerTest hs), Option.some.injEq] at hs
  subst hs
  cases hsend : s.send with
  | sized queSize =>
    rw [hsend] at hpush
    have hnone : s.writers = 0 := by
      by_contra hw
      exact h.queue_pos hw hq
    rw [writers, hsend, SendPc.writes_sized] at hnone
    refine ⟨[.send, .send], { s with
      sendQueue := s.sendQueue ++ [s.accepted], accepted := s.accepted + 1,
      popped := s.popped - 1, send := .idle }, ?_, ?_⟩
    · simp only [run_cons, run_nil, Handshake.step, if_neg (Nat.not_lt.mpr hpush.2),
        if_pos hpush.1, Option.bind_some]
    · intro hex
      have hone := hex.not_stuck ⟨rfl, by simp only; omega, by simp only; omega, by simp only; omega⟩
        (List.append_ne_nil_of_right_ne_nil _ (List.cons_ne_nil _ _))
      simp only at hone
      omega
  | idle | pushed queSize | starting =>
    rw [hsend] at hpush
    exact hpush.elim

/-- A handler about to write a front that was written before. -/
theorem twice_of_started {s : Handshake} {node : Nat} {rest : List Nat}
    (hq : s.sendQueue = node :: rest) (hr : 0 < s.resuming) (hmem : node ∈ s.started) :
    ∃ bs u, run Handshake.step s bs = some u ∧ ¬u.Exclusive := by
  have hstep := step_handlerStart hq hr
  exact ⟨[.handlerStart], _, run_cons_eq_some.mpr ⟨_, hstep, rfl⟩, not_exclusive_of_twice hmem rfl⟩

/-- A handler and a `send` about to write the same front. -/
theorem twice_of_starting {s : Handshake} {node : Nat} {rest : List Nat}
    (hq : s.sendQueue = node :: rest) (hr : 0 < s.resuming) (hsend : s.send = .starting) :
    ∃ bs u, run Handshake.step s bs = some u ∧ ¬u.Exclusive := by
  obtain ⟨bs, u, hu, hex⟩ := twice_of_started (s := { s with
    writing := s.writing ++ [node], started := s.started ++ [node], send := .idle }) hq hr
    (List.mem_append_right _ (List.mem_singleton_self node))
  exact ⟨.send :: bs, u, run_cons_eq_some.mpr ⟨_, step_send_starting hq hsend, hu⟩, hex⟩

/-- A handler that goes on to write a front somebody else writes makes two writes of it. -/
theorem Inv.twice {s t : Handshake} (h : s.Inv) (hq : s.sendQueue ≠ [])
    (hw : s.writers ≠ 0) (hs : s.step .handlerTest = some t) :
    ∃ bs u, run Handshake.step t bs = some u ∧ ¬u.Exclusive := by
  rw [step_handlerTest_of_ne hq (popped_pos_of_handlerTest hs), Option.some.injEq] at hs
  subst hs
  obtain ⟨node, rest, hfront⟩ := List.exists_cons_of_ne_nil hq
  have hr : 0 < s.resuming + 1 := Nat.succ_pos _
  by_cases hwritten : s.writing.length + s.completed = 0
  · by_cases hother : s.resuming = 0
    · cases hsend : s.send with
      | pushed queSize =>
        cases queSize with
        | zero =>
          obtain ⟨bs, u, hu, hex⟩ := twice_of_starting (s := { s with
            popped := s.popped - 1, resuming := s.resuming + 1, send := .starting }) hfront hr rfl
          refine ⟨.send :: bs, u, run_cons_eq_some.mpr ⟨_, ?_, hu⟩, hex⟩
          simp only [Handshake.step, Nat.lt_irrefl, ite_false]
        | succ n =>
          rw [writers, hwritten, hother, hsend] at hw
          exact absurd rfl hw
      | starting => exact twice_of_starting hfront hr rfl
      | idle | sized queSize =>
        rw [writers, hwritten, hother, hsend] at hw
        exact absurd rfl hw
    · obtain ⟨bs, u, hu, hex⟩ := twice_of_started (s := { s with
        writing := s.writing ++ [node], started := s.started ++ [node], popped := s.popped - 1,
        resuming := s.resuming }) hfront (Nat.pos_of_ne_zero hother)
        (List.mem_append_right _ (List.mem_singleton_self node))
      exact ⟨.handlerStart :: bs, u,
        run_cons_eq_some.mpr ⟨_, step_handlerStart hfront hr, hu⟩, hex⟩
  · obtain ⟨p, hrange, _, hstarted⟩ := h.queue_eq
    have hnode : node = p := by
      rw [hfront, List.length_cons, List.range'_succ] at hrange
      exact (List.cons.inj hrange).1
    have hmem : node ∈ s.started := by
      rw [hstarted, List.mem_range, hnode]
      omega
    exact twice_of_started hfront hr hmem

/-- A harmful test leads to a state that is not exclusive. -/
theorem Inv.harm {s t : Handshake} {a : HandshakeAction} (h : s.Inv) (hs : s.step a = some t)
    (hbad : ¬s.Harmless a) : ∃ bs u, run Handshake.step t bs = some u ∧ ¬u.Exclusive := by
  cases a with
  | handlerTest =>
    by_cases hq : s.sendQueue = []
    · have hbad' : ¬(s.send.PushComing → 1 < s.popped) := by
        intro hlast
        exact hbad ⟨fun _ => hlast, fun hne => absurd hq hne⟩
      obtain ⟨hpush, hp⟩ := Classical.not_imp.mp hbad'
      exact h.stuck hq hpush (Nat.le_of_not_lt hp) hs
    · have hbad' : s.writers ≠ 0 := by
        intro hzero
        exact hbad ⟨fun hnil => absurd hnil hq, fun _ => hzero⟩
      exact h.twice hq hbad' hs
  | send | complete node | handlerPop | handlerStart => exact absurd trivial hbad

/-- The handshake is exclusive in every run all of whose emptiness tests are
harmless, and the first harmful test of a run has a continuation in which it is
not. -/
theorem exclusive_along (as : List HandshakeAction) (s : Handshake)
    (h : run Handshake.step init as = some s) (hok : Along Handshake.step Harmless init as) :
    s.Exclusive ∧ ∀ a t, s.step a = some t → ¬s.Harmless a →
      ∃ bs u, run Handshake.step init (as ++ a :: bs) = some u ∧ ¬u.Exclusive := by
  have hinv := inv_of_run hok h
  refine ⟨hinv.exclusive, ?_⟩
  intro a t hs hbad
  obtain ⟨bs, u, hu, hex⟩ := hinv.harm hs hbad
  exact ⟨bs, u, run_append_eq_some.mpr ⟨s, h, run_cons_eq_some.mpr ⟨t, hs, hu⟩⟩, hex⟩

/-- A second `send` that reads the size before the first message is popped, pushes before the
handler has looked and leaves behind that, its message to the handler. -/
theorem exclusive_along_two :
    ∃ s, run Handshake.step init [.send, .send, .send, .send, .send, .complete 0, .handlerPop,
        .send, .handlerTest, .send, .handlerStart] = some s ∧
      s.writing = [1] ∧ s.started = [0, 1] ∧ s.Exclusive := by
  have hrun : run Handshake.step init [.send, .send, .send, .send, .send, .complete 0, .handlerPop,
      .send, .handlerTest, .send, .handlerStart] = some ⟨[1], 2, [1], [0, 1], .idle, 0, 0, 0⟩ := by
    decide
  exact ⟨_, hrun, rfl, rfl, (exclusive_along _ _ hrun (by decide)).1⟩

/-- The second message's `send` reads the size before the first message is popped
and pushes after the handler has seen the queue empty: nobody writes it. -/
theorem not_exclusive :
    ¬∀ as s, run Handshake.step init as = some s → s.Exclusive := by
  intro h
  have hrun : run Handshake.step init [.send, .send, .send, .send, .send, .complete 0,
      .handlerPop, .handlerTest, .send, .send] = some ⟨[1], 2, [], [0], .idle, 0, 0, 0⟩ := by
    decide
  have hone := (h _ _ hrun).not_stuck ⟨rfl, rfl, rfl, rfl⟩ (List.cons_ne_nil _ _)
  contradiction

end Handshake

end ResourceServer
