import Mathlib.Data.Prod.Lex
import ResourceServer.Core.Progress
import ResourceServer.Serving.Answers

/-!
# The server settles

Without new bytes and without wake-ups out of nothing every schedule of the server
ends, with or without errors of the network: reads consume what has arrived, the
worker empties its queue, and writes come to their ends. Each part has its measure,
and an earlier part may only give the later ones more to do.
-/

namespace ResourceServer

open FileStream Transition

namespace ReadLoop

/-- The work left to the io thread, with the read that may still fail. -/
def left (s : ReadLoop) : Nat := s.work + if s.receiver.pending = none then 0 else 1

/-- A read that takes bytes leaves less to do than they were. -/
theorem left_lt_of_readSome {s t : ReadLoop} {k : Nat} (hs : s.step (.readSome k) = some t) :
    t.left < s.left := by
  obtain ⟨r, hr, rfl⟩ := readSome_cases hs
  obtain ⟨op, hop, hr⟩ := Option.bind_eq_some_iff.mp hr
  obtain ⟨⟨hne, _⟩, hr⟩ := Option.ite_none_right_eq_some.mp hr
  have htake := List.length_pos_iff.mpr hne
  have hdue := due_le r
  have hpending : r.pending = some op := by rw [← Option.some.inj hr, hop]
  rw [List.length_take] at htake
  simp only [left, work, hop, hpending, List.length_drop, reduceCtorEq, if_false]
  omega

/-- A failed read is the last one. -/
theorem left_lt_of_fail {s t : ReadLoop} (hs : s.step .fail = some t) : t.left < s.left := by
  obtain ⟨r, hr, rfl⟩ := Option.map_eq_some_iff.mp hs
  obtain ⟨op, hop, rfl⟩ := Option.map_eq_some_iff.mp hr
  simp only [left, work, due, hop, if_true, reduceCtorEq, if_false]
  omega

/-- Of the two completions that can come without a byte between them, the second leaves none. -/
theorem Holds.left_lt_of_complete {arr : Bytes} {s t : ReadLoop} {fresh : Nat → Byte}
    (h : s.Holds arr) (hs : s.step (.complete fresh) = some t) : t.left < s.left := by
  obtain ⟨⟨part, _, hreads⟩, _⟩ := h
  obtain ⟨r, node, hcomplete, rfl⟩ := completed_cases hs
  have hpending := pending_of_complete hcomplete
  suffices hlt : due r < due s.receiver by
    rcases complete_cases hcomplete with ⟨hp, _⟩ | ⟨n, cur, hp, _⟩ <;>
      simpa only [left, work, hp, reduceCtorEq, if_false, if_neg hpending, Nat.add_lt_add_iff_right,
        Nat.add_lt_add_iff_left] using hlt
  rcases complete_cases hcomplete with ⟨hp, hd, rfl, _⟩ | ⟨n, cur, hp, hd, hcur, he⟩
  · obtain ⟨hdata, hnext⟩ := Receiver.onReadHead_eq fresh hd
    simp only [due, hp, hd, hnext, hdata, if_true]
    split <;> omega
  · have hdue : due s.receiver = 1 := by simp only [due, hp, hd, if_true]
    rw [hdue]
    rcases hreads.onReadMessageFull hp hd hcur with
      ⟨r', full, he', hnil, hp', _⟩ | ⟨r', n', he', _, hdata, hp', hpos⟩
    · cases he.symm.trans he'
      have hempty := hnil.2
      simp only [hp'] at hempty
      simp only [due, hp', ← hempty.1]
      exact Nat.one_pos
    · cases he.symm.trans he'
      simp only [due, hp', hdata]
      rw [if_neg (by rw [List.length_nil]; omega)]
      exact Nat.one_pos

end ReadLoop

/-- The steps the worker has before it blocks. -/
def Dispatch.ahead {ι : Type*} (s : Dispatch ι) : Nat :=
  10 * s.logicQue.length + match s.worker with
    | .left | .asleep => 0
    | .dozing => 1
    | .called => bif s.logicQue.isEmpty then 8 else 3
    | .awake => bif s.logicQue.isEmpty then 8 else 4
    | .checking => 5
    | .locking => 6
    | .testing => 7

/-- Every step of a running worker brings it closer to its next block. -/
theorem Dispatch.WorkerStep.ahead_lt {ι : Type*} {s t : Dispatch ι} (h : WorkerStep s t)
    (hrun : s.Running) : t.ahead < s.ahead := by
  cases h with
  | lock hpc | sleep hpc => simp [ahead, hpc]
  | again hpc hmore => simp [ahead, hpc]
  | skip hpc hempty => simp [ahead, hpc, hempty]
  | doze hpc hempty _ => simp [ahead, hpc]
  | ready hpc hpred =>
    have hne := hpred.resolve_right (by simp [hrun.isStop])
    obtain ⟨front, rest, hq⟩ := List.exists_cons_of_ne_nil hne
    simp [ahead, hpc, hq]
  | drop front rest hpc hq hunknown =>
    simp only [ahead, hpc, hq, List.length_cons, List.isEmpty_cons, cond_false]
    omega
  | call front rest call hpc hq hcall => simp [ahead, hpc, hq]
  | pop hpc =>
    cases hq : s.logicQue with
    | nil => simp [ahead, hpc, hq]
    | cons front rest =>
      simp only [ahead, hpc, hq, List.tail_cons, List.length_cons, List.isEmpty_cons, cond_false]
      omega
  | leave hpc hempty hstop =>
    rw [hrun.isStop] at hstop
    contradiction

namespace Sender

/-- The bytes still to be written, and a completion for each node. -/
def left (s : Sender) : Nat :=
  (s.writing.map fun op => op.rest.length + 1).sum +
    (s.sendQueue.tail.map fun ptr => ptr.node.buffer.length + 1).sum

/-- What the write at an index adds to the total. -/
theorem sum_eraseIdx {f : WriteOp → Nat} {ops : List WriteOp} {j : Nat} {op : WriteOp}
    (h : ops[j]? = some op) : f op + ((ops.eraseIdx j).map f).sum = (ops.map f).sum := by
  obtain ⟨hj, rfl⟩ := List.getElem?_eq_some_iff.mp h
  have hsum := List.CommMonoid.add_sum_eraseIdx (l := ops.map f) (i := j) (by simpa using hj)
  rwa [List.getElem_map, List.eraseIdx_map] at hsum

/-- A write of some bytes leaves less to do. -/
theorem left_lt_of_writeSome {s t : Sender} {j k : Nat} (hs : s.writeSome j k = some t) :
    t.left < s.left := by
  obtain ⟨op, hop, ⟨hpos, hle⟩, rfl⟩ := writeSome_cases hs
  have hj := (List.getElem?_eq_some_iff.mp hop).1
  have hbefore := sum_eraseIdx (f := fun op => op.rest.length + 1) hop
  have hafter := sum_eraseIdx (f := fun op => op.rest.length + 1)
    (List.getElem?_set_self (a := { op with rest := op.rest.drop k }) hj)
  rw [List.eraseIdx_set_eq, List.length_drop] at hafter
  simp only [left]
  omega

/-- The handler of a write starts what it takes off the queue. -/
theorem left_writeHandler (ec : Bool) (s : Sender) : (writeHandler ec s).left = s.left := by
  cases ec with
  | true => rfl
  | false =>
    rw [writeHandler, if_neg Bool.false_ne_true]
    cases hq : s.sendQueue.tail with
    | nil => simp [left, hq]
    | cons next rest =>
      simp only [startFront, List.isEmpty_cons, Bool.false_eq_true, if_false, left, hq,
        List.map_append, List.map_cons, List.map_nil, List.sum_append, List.sum_cons, List.sum_nil,
        List.tail_cons]
      omega

/-- A write that ends, in whatever way, is no longer to be completed. -/
theorem left_lt_of_handler {s : Sender} {j : Nat} {op : WriteOp} (ec : Bool)
    (hop : s.writing[j]? = some op) :
    (writeHandler ec { s with writing := s.writing.eraseIdx j }).left < s.left := by
  rw [left_writeHandler]
  have hsum := sum_eraseIdx (f := fun op => op.rest.length + 1) hop
  simp only [left]
  omega

end Sender

namespace Service

variable {ι κ : Type} [Fintype ι]

/-- What is left to read, to dispatch and to write, in this order. -/
def left (s : Service ι κ) : Nat ×ₗ Nat ×ₗ Nat :=
  toLex (∑ i, (s.loops i).left, toLex (s.dispatch.ahead, ∑ i, (s.senders i).left))

variable [DecidableEq ι]

/-- A read that goes on leaves less to do, whatever it posts. -/
theorem left_lt_of_loop {s t : Service ι κ} {j : ι} {l : ReadLoop}
    (ht : t.loops = Function.update s.loops j l) (hl : l.left < (s.loops j).left) :
    t.left < s.left := by
  refine Prod.Lex.left _ _ ?_
  refine sum_lt_of_component j ?_ fun i hi => ?_
  · rwa [ht, Function.update_self]
  · rw [ht, Function.update_of_ne hi]

omit [DecidableEq ι] in
/-- A worker that goes on leaves less to do, whatever its handler sends. -/
theorem left_lt_of_dispatch {s t : Service ι κ} (hloops : t.loops = s.loops)
    (ht : t.dispatch.ahead < s.dispatch.ahead) : t.left < s.left := by
  rw [left, hloops]
  exact Prod.Lex.right _ (Prod.Lex.left _ _ ht)

/-- A write that goes on leaves less to do. -/
theorem left_lt_of_sender {s t : Service ι κ} {j : ι} {u : Sender} (hloops : t.loops = s.loops)
    (hdispatch : t.dispatch = s.dispatch) (ht : t.senders = Function.update s.senders j u)
    (hu : u.left < (s.senders j).left) : t.left < s.left := by
  rw [left, hloops, hdispatch]
  refine Prod.Lex.right _ (Prod.Lex.right _ ?_)
  refine sum_lt_of_component j ?_ fun i hi => ?_
  · rwa [ht, Function.update_self]
  · rw [ht, Function.update_of_ne hi]

variable [DecidableEq κ] {env : UploadEnv κ} {dump : Json → Bytes} {s t : Service ι κ}

/-- Every step of the process leaves less to do, and so does every error. -/
theorem left_lt_of_step {a : ServiceAction ι} (ho : s.Ordered)
    (hholds : ∀ i, ∃ arr, (s.loops i).Holds arr) (ha : a.Internal ∨ a.Fails)
    (h : s.step env dump a = some t) : t.left < s.left := by
  cases a with
  | arrive | wake | flush => exact (ha.elim id id).elim
  | readSome j k =>
    obtain ⟨_, h⟩ := Option.ite_none_left_eq_some.mp h
    obtain ⟨l, hl, rfl⟩ := Option.map_eq_some_iff.mp h
    exact left_lt_of_loop rfl (ReadLoop.left_lt_of_readSome hl)
  | readComplete j fresh =>
    obtain ⟨r, node, d, hr, _, _, _, _, rfl⟩ := readComplete_cases h ho
    obtain ⟨arr, hj⟩ := hholds j
    have hstep : (s.loops j).step (.complete fresh) = some { s.loops j with
        receiver := r, posted := (s.loops j).posted ++ node.toList } := by
      rw [ReadLoop.step, hr]
      rfl
    exact left_lt_of_loop rfl (hj.left_lt_of_complete hstep)
  | readFail j =>
    obtain ⟨l, hl, rfl⟩ := Option.map_eq_some_iff.mp h
    exact left_lt_of_loop rfl (ReadLoop.left_lt_of_fail hl)
  | work os fresh =>
    obtain ⟨d, hd, _, _, _, _, hwork⟩ := work_cases h ho
    have hlt := (Dispatch.workerStep_of_dealMessage hd).ahead_lt ho.running
    rcases hwork with ⟨_, rfl⟩ | ⟨call, _, rfl⟩
    · exact left_lt_of_dispatch rfl hlt
    · exact left_lt_of_dispatch rfl hlt
  | writeSome j l k =>
    obtain ⟨_, h⟩ := Option.ite_none_left_eq_some.mp h
    obtain ⟨u, hu, rfl⟩ := Option.map_eq_some_iff.mp h
    exact left_lt_of_sender rfl rfl rfl (Sender.left_lt_of_writeSome hu)
  | writeComplete j l =>
    obtain ⟨u, hu, rfl⟩ := Option.map_eq_some_iff.mp h
    obtain ⟨op, hop, _, rfl⟩ := Sender.handler_of_complete hu
    exact left_lt_of_sender rfl rfl rfl (Sender.left_lt_of_handler false hop)
  | writeFail j l =>
    obtain ⟨u, hu, rfl⟩ := Option.map_eq_some_iff.mp h
    obtain ⟨op, hop, rfl⟩ := Sender.handler_of_fail hu
    exact left_lt_of_sender rfl rfl rfl (Sender.left_lt_of_handler true hop)

omit [Fintype ι] in
/-- Only an arrival brings bytes. -/
theorem received_of_internal {a : ServiceAction ι} (ha : a.Internal ∨ a.Fails) (i : ι) :
    received i [a] = [] := by
  cases a with
  | arrive | wake | flush => exact (ha.elim id id).elim
  | readSome | readComplete | readFail | work | writeSome | writeComplete | writeFail => rfl

/-- The server settles. From every state it can reach, with any number of sessions and admissible
length fields in what they have received, its own steps and the errors of the network come to
an end in whatever order they are taken; and its own steps lead to a state where none is left. -/
theorem settles (env : UploadEnv κ) (dump : Json → Bytes) (mem : ι → Nat → Byte)
    (disk : Disk κ Byte) (as : List (ServiceAction ι)) (s : Service ι κ)
    (hrun : run (step env dump) (init mem disk) as = some s)
    (hlen : ∀ i len, Announces (received i as) len → LengthOk len) :
    ¬ Endless (step env dump) (fun a => a.Internal ∨ a.Fails) s ∧
      ∃ bs t, (∀ b ∈ bs, b.Internal) ∧ run (step env dump) s bs = some t ∧
        t.Quiescent env dump := by
  have hends : Terminates (step env dump) (fun a => a.Internal ∨ a.Fails) s := by
    refine terminates_of_rank (P := fun t => ∃ bs, run (step env dump) (init mem disk) bs = some t ∧
      ∀ i, received i bs = received i as) wellFounded_lt left ?_ ⟨as, hrun, fun _ => rfl⟩
    rintro u a t ⟨bs, hbs, hreceived⟩ ha hat
    refine ⟨⟨bs ++ [a], run_snoc_eq_some.mpr ⟨u, hbs, hat⟩, fun i => ?_⟩, ?_⟩
    · rw [received_append, received_of_internal ha, List.append_nil, hreceived]
    · exact left_lt_of_step (ordered_of_run hbs)
        (fun i => ⟨_, (reading_of_run hbs (hreceived i ▸ hlen i)).holds⟩) ha hat
  exact ⟨hends.not_endless, (hends.mono fun _ => Or.inl).exists_run⟩

/-- A test message in the middle of its read, and the first bytes of a head. -/
private def underway : List (ServiceAction Bool) :=
  [.arrive true [3, 233, 0, 0, 0, 1, 104], .work ⟨none, false, false⟩ fun _ => 7,
    .arrive false [0, 7], .readSome true 6, .readComplete true fun _ => 9, .readFail false]

theorem settles_underway :
    ∃ s bs t, run (step (tableEnv []) fun _ => []) (init (fun _ _ => 7) fun _ => []) underway =
        some s ∧ (∀ b ∈ bs, b.Internal) ∧ run (step (tableEnv []) fun _ => []) s bs = some t ∧
        t.Quiescent (tableEnv []) fun _ => [] := by
  have hrun : (run (step (tableEnv []) fun _ => []) (init (fun _ _ => 7) fun _ => [])
      underway).isSome := by decide +kernel
  obtain ⟨s, hs⟩ := Option.isSome_iff_exists.mp hrun
  have hlen : ∀ i len, Announces (received i underway) len → LengthOk len := by
    have hframes : ∀ i, received i underway <+:
        [(if i then ⟨.idTestMsgReq, [104], by decide⟩ else ⟨⟨7⟩, [], by decide⟩ : Frame)].flatMap
          Frame.encode := by decide +kernel
    intro i len hl
    obtain ⟨f, hf, rfl⟩ := hl.of_frames (hframes i)
    rw [List.mem_singleton.mp hf]
    cases i <;> decide
  obtain ⟨_, bs, t, hbs, ht, hquiescent⟩ :=
    settles (tableEnv []) (fun _ => []) (fun _ _ => 7) (fun _ => []) underway s hs hlen
  exact ⟨s, bs, t, hs, hbs, ht, hquiescent⟩

end Service

end ResourceServer
