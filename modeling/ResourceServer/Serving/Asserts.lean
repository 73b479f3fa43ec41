import ResourceServer.Framing.Invariant
import ResourceServer.Framing.Stream
import ResourceServer.Native.Debug
import ResourceServer.Uploads.Failures

/-!
# Assertions a peer can reach

The length field of a head is signed, and the body read that follows asserts on it
twice: a message of length zero transfers no byte, and the first chunk of a negative
length leaves a negative residual. For positive lengths both assertions hold. The
upload handler asserts on what the peer wrote into the body and on the file system.
-/

namespace ResourceServer

open FileStream Transition

/-! ## The receive loop -/

/-- A positive `int32_t` is one without its sign bit, and not zero. -/
theorem toInt_length_pos_iff (len : BitVec 32) :
    0 < len.toInt ↔ 0 < len.toNat ∧ len.toNat < 2 ^ 31 := by
  have hlt := len.isLt
  rw [BitVec.toInt_eq_toNat_cond]
  split <;> omega

/-- A chunk of a message of non-negative length has bytes exactly if the message has. -/
theorem Filling.length_pos_iff {node : RecvNode} {n : BitVec 64} (h : Filling node n) {data : Bytes}
    (hd : data.length = (ReadOp.readMessageFull n).size) :
    0 < data.length ↔ 0 < node.totalLen.toNat := by
  have hc := h.copy_le
  refine ⟨fun _ => by omega, fun hpos => ?_⟩
  rw [hd]
  exact h.size_pos hpos.ne'

/-- Behind a chunk that is not the last of a message of non-negative length, the residual
is positive, and so was the length. -/
theorem Filling.residual_pos {node : RecvNode} {n : BitVec 64} (h : Filling node n)
    (hlt : node.totalLen.toNat < 2 ^ 31) {data : Bytes}
    (hd : data.length = (ReadOp.readMessageFull n).size)
    (hf : (Receiver.fillNode node data).isFulled = false) :
    0 < node.totalLen.toNat ∧ 0 < (n - BitVec.ofNat 64 data.length).toInt := by
  have hnext := h.fillNode hd hf
  have hunfilled := hnext.unfilled
  have hbudget := hnext.budget_eq
  have htotal : (Receiver.fillNode node data).totalLen = node.totalLen := rfl
  have hpos : 0 < node.totalLen.toNat := by
    by_contra hzero
    have hc := h.copy_le
    have hfull := (h.isFulled_fillNode hd).mpr (by omega)
    rw [hf] at hfull
    contradiction
  refine ⟨hpos, ?_⟩
  rw [htotal] at hunfilled hbudget
  rw [BitVec.toInt_eq_toNat_cond]
  split <;> omega

/-- What a body read is left with: a node of a length that is not negative with its
budget, or the first chunk of a negative one. -/
def Receiver.Budgeted (r : Receiver) : Prop :=
  ∀ n, r.pending = some (.readMessageFull n) → ∃ node, r.recvNode = some node ∧
    (node.totalLen.toNat < 2 ^ 31 ∧ Filling node n ∨
      2 ^ 31 ≤ node.totalLen.toNat ∧ node.currentLen.toNat = 0 ∧
        n = node.totalLen.signExtend 64)

namespace Receiver

/-- A read of a head has no budget to keep. -/
theorem budgeted_readHead (r : Receiver) : r.readHead.Budgeted := by
  intro n hp
  cases hp

/-- The handler of a head starts a body read, of whatever length the head says. -/
theorem budgeted_onReadHead {r : Receiver} (mem : Nat → Byte) (hd : r.data.length = headTotalLen) :
    (r.onReadHead mem).Budgeted := by
  intro n hp
  rw [(onReadHead_eq mem hd).2] at hp
  cases hp
  rw [onReadHead, if_neg (by rw [hd]; decide)]
  refine ⟨_, rfl, ?_⟩
  rcases Nat.lt_or_ge (headBodyLen r.fillHead).toNat (2 ^ 31) with hlt | hge
  · exact Or.inl ⟨hlt, Filling.new mem _ (Or.inl hlt)⟩
  · exact Or.inr ⟨hge, rfl, rfl⟩

/-- The assertions of a read of a body. -/
theorem asserts_eq {r : Receiver} {n : BitVec 64} {node : RecvNode}
    (hp : r.pending = some (.readMessageFull n)) (hn : r.recvNode = some node) :
    r.asserts = decide (0 < r.data.length) :: if (fillNode node r.data).isFulled then []
      else [decide (0 < (n - BitVec.ofNat 64 r.data.length).toInt)] := by
  rw [asserts, hp, hn]

/-- The first chunk of a negative length leaves a negative residual. -/
theorem false_mem_asserts_of_negative {r : Receiver} {node : RecvNode}
    (hp : r.pending = some (.readMessageFull (node.totalLen.signExtend 64)))
    (hn : r.recvNode = some node) (hneg : 2 ^ 31 ≤ node.totalLen.toNat)
    (hcur : node.currentLen.toNat = 0)
    (hd : r.data.length = (ReadOp.readMessageFull (node.totalLen.signExtend 64)).size) :
    false ∈ r.asserts := by
  have hlt := node.totalLen.isLt
  have hext := toNat_signExtend_length node.totalLen
  rw [if_pos hneg] at hext
  have hsize : r.data.length = bufferTotalLen := by
    rw [hd, ReadOp.size, hext, bufferTotalLen]
    omega
  have hfulled : (fillNode node r.data).isFulled = false := by
    rw [RecvNode.isFulled, beq_eq_false_iff_ne]
    intro he
    have hlen := congrArg BitVec.toNat he
    simp only [fillNode, BitVec.toNat_add, BitVec.toNat_ofNat, hcur, hsize, bufferTotalLen] at hlen
    omega
  have hresidual : ¬ 0 < (node.totalLen.signExtend 64 - BitVec.ofNat 64 r.data.length).toInt := by
    rw [BitVec.toInt_eq_toNat_cond, BitVec.toNat_sub, hext, hsize, bufferTotalLen]
    simp only [BitVec.toNat_ofNat]
    split <;> omega
  rw [asserts_eq hp hn, hfulled, if_neg Bool.false_ne_true, decide_eq_false hresidual]
  exact List.mem_cons_of_mem _ List.mem_cons_self

/-- The assertions of a body read hold exactly for a positive length. -/
theorem Budgeted.asserts_iff {r : Receiver} {n : BitVec 64} {node : RecvNode} (h : r.Budgeted)
    (hp : r.pending = some (.readMessageFull n)) (hn : r.recvNode = some node)
    (hd : r.data.length = (ReadOp.readMessageFull n).size) :
    false ∉ r.asserts ↔ 0 < node.totalLen.toInt := by
  obtain ⟨node', hn', hcase⟩ := h n hp
  cases hn.symm.trans hn'
  rw [toInt_length_pos_iff]
  rcases hcase with ⟨hlt, hfill⟩ | ⟨hneg, hcur, rfl⟩
  · rw [and_iff_left hlt, asserts_eq hp hn]
    cases hf : (fillNode node r.data).isFulled with
    | true =>
      rw [if_pos rfl, ← hfill.length_pos_iff hd, List.mem_singleton]
      simp [List.length_pos_iff]
    | false =>
      obtain ⟨hpos, hresidual⟩ := hfill.residual_pos hlt hd hf
      have hchunk := (hfill.length_pos_iff hd).mpr hpos
      rw [if_neg Bool.false_ne_true, decide_eq_true hchunk, decide_eq_true hresidual]
      simp [hpos]
  · apply iff_of_false
    · exact not_not.mpr (false_mem_asserts_of_negative hp hn hneg hcur hd)
    · omega

/-- The assertions of a full read hold exactly if it is not of a message of zero or
negative length. -/
theorem Budgeted.asserts_iff_of_complete {r r' : Receiver} {mem : Nat → Byte}
    {posted : Option RecvNode} (h : r.Budgeted) (hs : r.complete mem = some (r', posted)) :
    false ∉ r.asserts ↔ ∀ n node, r.pending = some (.readMessageFull n) →
      r.recvNode = some node → 0 < node.totalLen.toInt := by
  rcases ReadLoop.complete_cases hs with ⟨hp, _⟩ | ⟨n, node, hp, hd, hn, _⟩
  · simp [asserts, hp]
  · simp [h.asserts_iff hp hn hd, hp, hn]

/-- A body read whose assertions hold leads to another one or to the next head. -/
theorem Budgeted.complete {r r' : Receiver} {mem : Nat → Byte} {posted : Option RecvNode}
    (h : r.Budgeted) (hok : false ∉ r.asserts) (hs : r.complete mem = some (r', posted)) :
    r'.Budgeted := by
  rcases ReadLoop.complete_cases hs with ⟨_, hd, rfl, _⟩ | ⟨n, node, hp, hd, hn, he⟩
  · exact budgeted_onReadHead mem hd
  · have hpos := (h.asserts_iff hp hn hd).mp hok
    obtain ⟨node', hn', hcase⟩ := h n hp
    cases hn.symm.trans hn'
    obtain ⟨_, hlt⟩ := (toInt_length_pos_iff _).mp hpos
    obtain ⟨_, hfill⟩ := hcase.resolve_right fun hneg => absurd hlt (not_lt.mpr hneg.1)
    rcases onReadMessageFull_cases he with ⟨_, rfl, _⟩ | ⟨hf, rfl, _⟩
    · exact budgeted_readHead _
    · intro n' hp'
      cases hp'
      exact ⟨_, rfl, Or.inl ⟨hlt, hfill.fillNode hd hf⟩⟩

end Receiver

/-- The steps of a read loop other than a completion keep the budget. -/
theorem ReadLoop.budgeted_step {l l' : ReadLoop} {a : ReadAction} (h : l.receiver.Budgeted)
    (ha : ∀ mem, a ≠ .complete mem) (hs : l.step a = some l') : l'.receiver.Budgeted := by
  cases a with
  | arrive piece =>
    cases hs
    exact h
  | readSome k =>
    obtain ⟨r, hr, rfl⟩ := readSome_cases hs
    obtain ⟨_, _, _, rfl⟩ := Receiver.readSome_cases hr
    exact h
  | complete mem => exact absurd rfl (ha mem)
  | fail =>
    obtain rfl := failed_cases hs
    intro n hp
    cases hp

/-! ## The server -/

namespace DebugServer

variable {ι κ : Type} [DecidableEq ι] [DecidableEq κ] {env : UploadEnv κ}

/-- The condition on a step: a full body read is of a message of positive length, and
an upload request that is handled is acceptable. -/
def Admissible (env : UploadEnv κ) (s : DebugServer ι κ) : DebugAction ι → Prop
  | .receive i (.complete _) => ∀ n node,
    (s.loops i).receiver.pending = some (.readMessageFull n) →
      (s.loops i).receiver.recvNode = some node → 0 < node.totalLen.toInt
  | .work os => ∀ call ∈ s.dispatch.nextCall, call.handler = .doUploadFileReq →
    env.Accepts os call.data (s.uploads.session call.session)
  | _ => True

/-- What each session is left to read is as budgeted. -/
def Budgeted (s : DebugServer ι κ) : Prop := ∀ i, (s.loops i).receiver.Budgeted

omit [DecidableEq κ] in
/-- Only the loop of one session changes. -/
theorem Budgeted.update {s : DebugServer ι κ} {i : ι} {l : ReadLoop} (h : s.Budgeted)
    (hl : l.receiver.Budgeted) (d : Dispatch ι) (w : UploadSystem ι κ) :
    Budgeted ⟨Function.update s.loops i l, d, w⟩ := by
  apply (Function.forall_update_iff s.loops fun _ l => l.receiver.Budgeted).mpr
  exact ⟨hl, fun j _ => h j⟩

omit [DecidableEq κ] in
/-- A full read keeps the budgets, and fails no assertion exactly if its message has a
positive length. -/
theorem Budgeted.readComplete {s t : DebugServer ι κ} {i : ι} {mem : Nat → Byte} (h : s.Budgeted)
    (hok : ¬ s.Failed) (hs : s.readComplete i mem = some t) :
    t.Budgeted ∧ (¬ t.Failed ↔ ∀ n node,
      (s.loops i).receiver.pending = some (.readMessageFull n) →
        (s.loops i).receiver.recvNode = some node → 0 < node.totalLen.toInt) := by
  obtain ⟨⟨r, node⟩, hcomp, hs⟩ := Option.bind_eq_some_iff.mp hs
  have hasserts := (h i).asserts_iff_of_complete hcomp
  have hfailed : (s.assert (s.loops i).receiver.asserts).Failed ↔
      false ∈ (s.loops i).receiver.asserts := List.mem_append.trans (or_iff_right hok)
  rw [← hasserts]
  dsimp only at hs
  by_cases hfalse : false ∈ (s.loops i).receiver.asserts
  · rw [if_pos (hfailed.mpr hfalse)] at hs
    cases hs
    exact ⟨h, not_congr hfailed⟩
  · rw [if_neg (mt hfailed.mp hfalse)] at hs
    obtain ⟨d, _, rfl⟩ := Option.map_eq_some_iff.mp hs
    exact ⟨h.update ((h i).complete hfalse hcomp) d _, not_congr hfailed⟩

/-- The worker keeps the budgets, and fails no assertion exactly if the upload request it
may handle is acceptable. -/
theorem Budgeted.work {s t : DebugServer ι κ} {os : FsOutcome} {r : String}
    (hroot : env.resourceRoot = some r) (h : s.Budgeted) (hok : ¬ s.Failed)
    (hs : s.work env os = some t) :
    t.Budgeted ∧ (¬ t.Failed ↔ ∀ call ∈ s.dispatch.nextCall, call.handler = .doUploadFileReq →
      env.Accepts os call.data (s.uploads.session call.session)) := by
  obtain ⟨d, _, hs⟩ := Option.map_eq_some_iff.mp hs
  cases hcall : s.dispatch.nextCall with
  | none =>
    simp only [hcall] at hs
    subst hs
    exact ⟨h, iff_of_true hok fun call hmem => nomatch hmem⟩
  | some call =>
    simp only [hcall] at hs
    subst hs
    refine ⟨h, ?_⟩
    simp only [Option.mem_some_iff, forall_eq']
    cases hhandler : call.handler with
    | testSend =>
      refine iff_of_true ?_ fun he => nomatch he
      rwa [Failed, Invocation.upload, hhandler]
    | doUploadFileReq =>
      rw [Failed, Invocation.upload, hhandler]
      apply Iff.trans _ (forall_prop_of_true rfl).symm
      exact asserts_doUploadFileReq_iff_accepts (s := s.uploads.session call.session) hroot hok

/-- One step keeps the budgets, and fails no assertion exactly if it is admissible. -/
theorem Budgeted.step {s t : DebugServer ι κ} {a : DebugAction ι} {r : String}
    (hroot : env.resourceRoot = some r) (h : s.Budgeted) (hs : s.step env a = some t) :
    ¬ s.Failed ∧ t.Budgeted ∧ (¬ t.Failed ↔ Admissible env s a) := by
  obtain ⟨hok, hs⟩ := Option.ite_none_left_eq_some.mp hs
  refine ⟨hok, ?_⟩
  cases a with
  | receive i a =>
    cases a with
    | complete mem => exact h.readComplete hok hs
    | arrive piece | readSome k | fail =>
      simp only [act] at hs
      obtain ⟨l, hl, rfl⟩ := Option.map_eq_some_iff.mp hs
      have hbudgeted := ReadLoop.budgeted_step (h i) (fun _ => ReadAction.noConfusion) hl
      exact ⟨h.update hbudgeted _ _, iff_of_true hok trivial⟩
  | work os => exact h.work hroot hok hs
  | wake =>
    obtain ⟨d, _, rfl⟩ := Option.map_eq_some_iff.mp hs
    exact ⟨h, iff_of_true hok trivial⟩
  | flush i k =>
    cases hs
    exact ⟨h, iff_of_true hok trivial⟩

/-- No assertion fails in a run exactly if all its steps are admissible: every body read
that completes is of a message of positive length, and every upload request the worker
handles has fields that convert, a directory, a file that opens and data that decodes,
or is a null. -/
theorem asserts_iff_admissible (env : UploadEnv κ) (r : String) (hroot : env.resourceRoot = some r)
    (mem : ι → Nat → Byte) (disk : Disk κ Byte) (as : List (DebugAction ι)) (s : DebugServer ι κ)
    (hrun : run (step env) (init mem disk) as = some s) :
    ¬ s.Failed ↔ Along (step env) (Admissible env) (init mem disk) as := by
  have hinit : Budgeted (init mem disk : DebugServer ι κ) :=
    fun i => Receiver.budgeted_readHead _
  have hbudgeted : ∀ bs t, run (step env) (init mem disk) bs = some t → t.Budgeted := by
    intro bs t ht
    exact run_invariant hinit (fun s a u hs hu => (hs.step hroot hu).2.1) ht
  apply iff_along_of_step hbudgeted List.not_mem_nil _ hrun
  intro t a u ht hu
  obtain ⟨hok, _, hiff⟩ := ht.step hroot hu
  exact ⟨hok, hiff⟩

/-- The body of an upload, and the packet it parses to. -/
private def uploadBodies : List (Bytes × Json) := [([9], packetRoot "d" 1 true "aGk=")]

/-- A session receives the upload, and the worker handles it. -/
private def oneUpload : List (DebugAction Unit) :=
  [.receive () (.arrive [3, 235, 0, 0, 0, 1, 9]), .receive () (.readSome 6),
    .receive () (.complete fun _ => 0), .receive () (.readSome 1),
    .receive () (.complete fun _ => 0), .work ⟨some true, true, true⟩,
    .work ⟨some true, true, true⟩, .work ⟨some true, true, true⟩]

theorem asserts_iff_admissible_upload :
    Along (step (tableEnv uploadBodies)) (Admissible (tableEnv uploadBodies))
      (init (fun _ _ => 0) fun _ => []) oneUpload := by
  have hrun : (run (step (tableEnv uploadBodies)) (init (fun _ _ => 0) fun _ => [])
      oneUpload).any fun s => decide (s.uploads.asserts = [true, true, true]) := by
    decide +kernel
  obtain ⟨s, hs, h⟩ := (Option.any_eq_true _ _).mp hrun
  apply (asserts_iff_admissible (tableEnv uploadBodies) "root" rfl _ _ oneUpload s hs).mp
  simp [Failed, of_decide_eq_true h]

/-- A head with the length zero is enough. -/
theorem asserts_fail :
    ¬ ∀ (env : UploadEnv String) (r : String), env.resourceRoot = some r →
      ∀ (mem : Unit → Nat → Byte) disk as s,
        run (step env) (init mem disk) as = some s → ¬ s.Failed := by
  intro h
  have hrun : (run (step (tableEnv [])) (init (fun (_ : Unit) _ => 0) fun _ => [])
      [.receive () (.arrive [3, 233, 0, 0, 0, 0]), .receive () (.readSome 6),
        .receive () (.complete fun _ => 0), .receive () (.complete fun _ => 0)]).any
      fun s => decide s.Failed := by
    decide +kernel
  obtain ⟨s, hs, hfailed⟩ := (Option.any_eq_true _ _).mp hrun
  exact h (tableEnv []) "root" rfl _ _ _ s hs (of_decide_eq_true hfailed)

end DebugServer

end ResourceServer
