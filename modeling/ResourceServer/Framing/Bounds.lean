import ResourceServer.Framing.Stream

/-!
# Receive buffer bounds

The indices that the receive loop writes to, for every length field a peer can
send. For the non-negative lengths and for the negative multiples of the chunk
size every write stays inside the allocation. Every other length field lets the
peer write behind it, because the allocation is 32 bits wide and the read budget
is the sign-extended 64-bit length.
-/

namespace ResourceServer

open Transition Memory

namespace ReadLoop

/-- The writes into the receive node stay inside its block: the 32-bit sum that
sizes the block does not wrap, the terminator index is inside it, and the copy
that the handler of a full read makes ends at `total_len` at the latest. -/
structure WithinBounds (s : ReadLoop) : Prop where
  no_wrap : ∀ node ∈ s.receiver.recvNode, node.totalLen.toNat + 1 < 2 ^ 32
  terminator : ∀ node ∈ s.receiver.recvNode, node.totalLen.toNat < node.body.length
  copy : ∀ node ∈ s.receiver.recvNode, ∀ n, s.receiver.pending = some (.readMessageFull n) →
    s.receiver.data.length = (ReadOp.readMessageFull n).size →
    node.currentLen.toNat + s.receiver.data.length ≤ node.totalLen.toNat

/-- The block of the current node has the size its length asks for. -/
def Sized (s : ReadLoop) : Prop := ∀ node ∈ s.receiver.recvNode,
  node.totalLen.toNat + 1 < 2 ^ 32 ∧ node.body.length = node.totalLen.toNat + 1

/-- A step that reads no bad length keeps the sizes. -/
theorem Sized.step {arr : Bytes} {s t : ReadLoop} {a : ReadAction} (h : s.Sized)
    (hh : s.Holds arr) (hok : HeadField LengthOk s a) (hs : s.step a = some t) : t.Sized := by
  cases a with
  | arrive piece =>
    cases hs
    exact h
  | readSome k =>
    obtain ⟨r, hr, rfl⟩ := readSome_cases hs
    obtain ⟨_, _, _, rfl⟩ := Receiver.readSome_cases hr
    exact h
  | complete mem =>
    obtain ⟨r, node, hcomp, rfl⟩ := completed_cases hs
    obtain ⟨⟨part, _, hr⟩, _⟩ := hh
    rcases complete_cases hcomp with ⟨hp, hd, rfl, rfl⟩ | ⟨n, cur, hp, hd, hn, he⟩
    · intro node hnode
      have hlen := hok hp hd
      rw [← Receiver.headBodyLen_fillHead hr.1 hd] at hlen
      have hfill := Filling.new mem ⟨Receiver.headId s.receiver.fillHead⟩ hlen
      rw [Receiver.onReadHead, if_neg (by rw [hd]; decide)] at hnode
      cases hnode
      exact ⟨hfill.no_wrap, hfill.length_body⟩
    · have hcur := h cur hn
      have hnew : ∀ node ∈ r.recvNode, node = Receiver.fillNode cur s.receiver.data := by
        intro node hnode
        rcases Receiver.onReadMessageFull_cases he with ⟨_, rfl, _⟩ | ⟨_, rfl, _⟩
        · exact (Option.some.inj hnode).symm
        · exact (Option.some.inj hnode).symm
      intro node hnode
      rw [hnew node hnode]
      exact ⟨hcur.1, (length_copy _ _ _).trans hcur.2⟩
  | fail =>
    obtain rfl := failed_cases hs
    exact h

/-- Admissible length fields keep every write inside its block. -/
theorem withinBounds_of_along {mem : Nat → Byte} {as : List ReadAction} {s : ReadLoop}
    (hok : Along step (HeadField LengthOk) (fresh mem) as)
    (h : run step (fresh mem) as = some s) : s.WithinBounds := by
  have hholds := holds_of_run hok h
  have hsized : s.Holds (arrived as) ∧ s.Sized := by
    refine run_history_along (P := fun as s => s.Holds (arrived as) ∧ s.Sized)
      ⟨holds_fresh mem, fun _ hn => nomatch hn⟩ ?_ hok h
    intro as s a t hs ha ht
    refine ⟨?_, hs.2.step hs.1 ha ht⟩
    rw [arrived_append]
    exact hs.1.step ha ht
  refine ⟨fun node hn => (hsized.2 node hn).1, ?_, ?_⟩
  · intro node hn
    rw [(hsized.2 node hn).2]
    exact Nat.lt_succ_self _
  · intro node hn n hp hd
    obtain ⟨⟨part, _, _, hr⟩, _⟩ := hholds
    simp only [hp] at hr
    obtain ⟨_, node', hn', hfill, _⟩ := hr
    cases hn.symm.trans hn'
    rw [hd]
    exact hfill.copy_le

/-! ## Length fields that leave the block -/

/-- A node of a bad length after `j` whole chunks, with the next chunk awaited. -/
structure Overrun (len : BitVec 32) (j : Nat) (s : ReadLoop) : Prop where
  socket : s.socket = []
  data : s.receiver.data = []
  lt : j * bufferTotalLen < len.toNat
  node : ∃ node n, s.receiver.recvNode = some node ∧ node.totalLen = len ∧
    node.currentLen.toNat = j * bufferTotalLen ∧
    s.receiver.pending = some (.readMessageFull n) ∧
    n.toNat + j * bufferTotalLen = 2 ^ 64 - 2 ^ 32 + len.toNat

/-- The schedule that delivers one chunk and hands it to the handler. -/
private def chunk : List ReadAction :=
  [.arrive (List.replicate bufferTotalLen 0), .readSome bufferTotalLen]

/-- While the budget of a bad length lasts, every read is a whole chunk. -/
theorem Overrun.size_eq {len : BitVec 32} {j : Nat} (hlt : j * bufferTotalLen < len.toNat)
    {n : BitVec 64}
    (hn : n.toNat + j * bufferTotalLen = 2 ^ 64 - 2 ^ 32 + len.toNat) :
    (ReadOp.readMessageFull n).size = bufferTotalLen := by
  have := len.isLt
  simp only [ReadOp.size, bufferTotalLen] at hlt hn ⊢
  omega

/-- A delivered chunk fills the read buffer and changes nothing else. -/
theorem Overrun.run_chunk {len : BitVec 32} {j : Nat} {s : ReadLoop} (h : Overrun len j s) :
    run step s chunk = some { s with
      receiver := { s.receiver with data := List.replicate bufferTotalLen 0 } } := by
  obtain ⟨node, n, hnode, _, _, hp, hn⟩ := h.node
  have hsize := size_eq h.lt hn
  have hread : s.receiver.readSome (List.replicate bufferTotalLen 0) = some { s.receiver with
      data := s.receiver.data ++ List.replicate bufferTotalLen 0 } :=
    Receiver.readSome_eq hp (by decide)
      (by rw [h.data, hsize, List.length_replicate, List.length_nil, Nat.zero_add])
  rw [h.data, List.nil_append] at hread
  have htake : (s.socket ++ List.replicate bufferTotalLen (0 : Byte)).take bufferTotalLen =
      List.replicate bufferTotalLen 0 := by
    rw [h.socket, List.nil_append]
    exact List.take_of_length_le (by rw [List.length_replicate])
  have hdrop : (s.socket ++ List.replicate bufferTotalLen (0 : Byte)).drop bufferTotalLen =
      s.socket := by
    rw [h.socket, List.nil_append]
    exact List.drop_of_length_le (by rw [List.length_replicate])
  rw [chunk, run_cons, ReadLoop.step, Option.bind_some, run_cons, ReadLoop.step,
    if_pos (by simp), htake, hread, Option.map_some, Option.bind_some, hdrop]
  rfl

/-- The handler of a whole chunk leads on to the next one while the node is not reached. -/
theorem Overrun.succ {len : BitVec 32} {j : Nat} {s : ReadLoop} (h : Overrun len j s)
    (hnext : (j + 1) * bufferTotalLen < len.toNat) :
    ∃ t, run step s (chunk ++ [.complete fun _ => 0]) = some t ∧ Overrun len (j + 1) t := by
  obtain ⟨node, n, hnode, hlen, hcur, hp, hn⟩ := h.node
  have hsize := size_eq h.lt hn
  let r : Receiver := { s.receiver with data := List.replicate bufferTotalLen 0 }
  have hd : r.data.length = (ReadOp.readMessageFull n).size := by
    rw [hsize]
    exact List.length_replicate
  have hcomp : r.complete (fun _ => 0) = some (r.onReadMessageFull n node) :=
    Receiver.complete_readMessageFull _ hp hd hnode
  have hfill : (Receiver.fillNode node r.data).currentLen.toNat = (j + 1) * bufferTotalLen := by
    have := len.isLt
    have hr : r.data.length = bufferTotalLen := List.length_replicate
    rw [Receiver.fillNode, BitVec.toNat_add, BitVec.toNat_ofNat, hcur, hr]
    simp only [bufferTotalLen] at hnext ⊢
    omega
  have hnot : (Receiver.fillNode node r.data).isFulled = false := by
    rw [RecvNode.isFulled, beq_eq_false_iff_ne]
    intro he
    have hc := congrArg BitVec.toNat he
    rw [hfill] at hc
    change node.totalLen.toNat = _ at hc
    rw [hlen] at hc
    omega
  let r' : Receiver := { r with recvNode := some (Receiver.fillNode node r.data) }
  have hon : r.onReadMessageFull n node =
      (r'.readMessageFull (n - BitVec.ofNat 64 r.data.length), none) := by
    rw [Receiver.onReadMessageFull, hnot]
    rfl
  refine ⟨⟨s.socket, r'.readMessageFull (n - BitVec.ofNat 64 r.data.length), s.posted ++ []⟩,
    ?_, h.socket, rfl, hnext, _, _, rfl, hlen, hfill, rfl, ?_⟩
  · refine run_snoc_eq_some.mpr ⟨_, h.run_chunk, ?_⟩
    change (r.complete fun _ => 0).map _ = _
    rw [hcomp, hon]
    rfl
  · have := len.isLt
    have hr : r.data.length = bufferTotalLen := List.length_replicate
    rw [hr, BitVec.toNat_sub]
    simp only [bufferTotalLen, BitVec.toNat_ofNat] at hn hnext ⊢
    omega

/-- The schedule that delivers a head with the given length field and handles it. -/
private def announce (len : BitVec 32) : List ReadAction :=
  [.arrive ([0, 0] ++ hostToNetworkLong len), .readSome headTotalLen, .complete fun _ => 0]

/-- A peer that announces a bad length starts an overrun. -/
theorem exists_announced (mem : Nat → Byte) {len : BitVec 32} (hneg : 2 ^ 31 ≤ len.toNat) :
    ∃ s, run step (fresh mem) (announce len) = some s ∧
      Along step (HeadField (· = len)) (fresh mem) (announce len) ∧ Overrun len 0 s := by
  let head : Bytes := [0, 0] ++ hostToNetworkLong len
  have hhead : head.length = headTotalLen := by
    rw [List.length_append, length_hostToNetworkLong]
    rfl
  let r : Receiver := { Receiver.start mem with data := head }
  have hfield : r.lengthField = len := networkToHostLong_hostToNetworkLong len
  have hbody : Receiver.headBodyLen r.fillHead = len := by
    rw [Receiver.headBodyLen_fillHead (r := r) (Receiver.reads_start mem).1 hhead, hfield]
  have hread : (Receiver.start mem).readSome head = some r :=
    Receiver.readSome_eq rfl (by simp [head]) (by
      rw [hhead]
      exact Nat.le_refl _)
  have hcomp := Receiver.complete_readHead (r := r) (fun _ => 0) rfl hhead
  have hrun : run step (fresh mem) [.arrive head, .readSome headTotalLen] =
      some ⟨[], r, []⟩ := by
    have htake : (([] : Bytes) ++ head).take headTotalLen = head := List.take_of_length_le hhead.le
    have hdrop : (([] : Bytes) ++ head).drop headTotalLen = [] := List.drop_of_length_le hhead.le
    have hstep : step ⟨[] ++ head, Receiver.start mem, []⟩ (.readSome headTotalLen) =
        some ⟨[], r, []⟩ := by
      rw [ReadLoop.step, if_pos (by rw [List.nil_append, hhead]), htake, hread, Option.map_some,
        hdrop]
    exact run_cons_eq_some.mpr ⟨_, rfl, run_cons_eq_some.mpr ⟨_, hstep, rfl⟩⟩
  refine ⟨⟨[], r.onReadHead fun _ => 0, [] ++ []⟩, ?_, ?_, ?_⟩
  · refine run_snoc_eq_some.mpr ⟨_, hrun, ?_⟩
    rw [ReadLoop.step, hcomp]
    rfl
  · refine (along_snoc hrun).mpr ⟨⟨trivial, fun _ _ => ⟨trivial, fun _ _ => trivial⟩⟩, ?_⟩
    intro _ _
    exact hfield
  · obtain ⟨hdata, hpend⟩ := Receiver.onReadHead_eq (r := r) (fun _ => 0) hhead
    have hnode : (r.onReadHead fun _ => 0).recvNode =
        some (RecvNode.new (fun _ => 0) len ⟨Receiver.headId r.fillHead⟩) := by
      rw [Receiver.onReadHead, if_neg (by rw [hhead]; decide)]
      change some (RecvNode.new _ (Receiver.headBodyLen r.fillHead) _) = _
      rw [hbody]
    refine ⟨rfl, hdata, by omega, _, _, hnode, rfl, by rw [Nat.zero_mul]; rfl, hpend, ?_⟩
    rw [hbody, toNat_signExtend_length, if_pos hneg]
    omega

/-- An overrun lasts for every whole chunk below its length. -/
theorem exists_overrun (mem : Nat → Byte) {len : BitVec 32} (hneg : 2 ^ 31 ≤ len.toNat) (j : Nat)
    (hj : j * bufferTotalLen < len.toNat) :
    ∃ as s, run step (fresh mem) as = some s ∧
      Along step (HeadField (· = len)) (fresh mem) as ∧ Overrun len j s := by
  induction j with
  | zero => exact ⟨_, exists_announced mem hneg⟩
  | succ j ih =>
    obtain ⟨as, s, hrun, halong, hover⟩ := ih (by rw [Nat.succ_mul] at hj; omega)
    obtain ⟨t, ht, hnext⟩ := hover.succ hj
    refine ⟨as ++ (chunk ++ [.complete fun _ => 0]), t, run_append_eq_some.mpr ⟨s, hrun, ht⟩,
      (along_append hrun).mpr ⟨halong, ?_⟩, hnext⟩
    refine (along_snoc hover.run_chunk).mpr
      ⟨⟨trivial, fun _ _ => ⟨trivial, fun _ _ => trivial⟩⟩, ?_⟩
    intro hp _
    obtain ⟨_, _, _, _, _, hp', _⟩ := hover.node
    cases hp'.symm.trans hp

/-- Every other length field lets a peer write behind the block. -/
theorem exists_not_withinBounds (mem : Nat → Byte) {len : BitVec 32} (hbad : ¬ LengthOk len) :
    ∃ as s, run step (fresh mem) as = some s ∧
      Along step (HeadField (· = len)) (fresh mem) as ∧ ¬ s.WithinBounds := by
  have hneg : 2 ^ 31 ≤ len.toNat := Nat.le_of_not_lt fun hlt => hbad (Or.inl hlt)
  have hmod : len.toNat % bufferTotalLen ≠ 0 := fun hz => hbad (Or.inr hz)
  obtain ⟨as, s, hrun, halong, hover⟩ := exists_overrun mem hneg (len.toNat / bufferTotalLen) (by
    simp only [bufferTotalLen] at hmod ⊢
    omega)
  refine ⟨as ++ chunk, _, run_append_eq_some.mpr ⟨s, hrun, hover.run_chunk⟩,
    (along_append hrun).mpr ⟨halong, trivial, fun _ _ => ⟨trivial, fun _ _ => trivial⟩⟩, ?_⟩
  intro hwithin
  obtain ⟨node, n, hnode, hlen, hcur, hp, hn⟩ := hover.node
  have hle := hwithin.copy node hnode n hp (by
    rw [Overrun.size_eq hover.lt hn]
    exact List.length_replicate)
  rw [hcur, hlen, List.length_replicate] at hle
  simp only [bufferTotalLen] at hle hmod
  omega

/-- The receive buffer bounds hold in every state of every run whose heads carry
length fields from `C` exactly when each field of `C` is non-negative or a multiple
of the chunk size. -/
theorem withinBounds_iff_lengthOk (mem : Nat → Byte) (C : BitVec 32 → Prop) :
    (∀ as s, Along step (HeadField C) (fresh mem) as → run step (fresh mem) as = some s →
      s.WithinBounds) ↔ ∀ len, C len → LengthOk len := by
  constructor
  · intro h len hlen
    by_contra hbad
    obtain ⟨as, s, hrun, halong, hnot⟩ := exists_not_withinBounds mem hbad
    refine hnot (h as s (halong.mono fun s a ha => ha.mono ?_) hrun)
    rintro _ rfl
    exact hlen
  · intro h as s halong hrun
    exact withinBounds_of_along (halong.mono fun s a ha => ha.mono h) hrun

/-- A head whose length field is -1 allocates no cell for a node of `2 ^ 32 - 1` bytes. -/
theorem not_withinBounds_minus_one :
    ¬ ∀ mem as s, run step (fresh mem) as = some s → s.WithinBounds := by
  intro h
  have hrun : (run step (fresh fun _ => 0) [.arrive [3, 233, 255, 255, 255, 255],
      .readSome headTotalLen, .complete fun _ => 0]).any
        (·.receiver.recvNode.any (·.totalLen == 0xFFFFFFFF#32)) := by decide +kernel
  obtain ⟨s, hs, hn⟩ := (Option.any_eq_true _ _).mp hrun
  obtain ⟨node, hnode, hlen⟩ := (Option.any_eq_true _ _).mp hn
  have hwrap := (h _ _ s hs).no_wrap node hnode
  rw [eq_of_beq hlen] at hwrap
  exact absurd hwrap (by decide)

end ReadLoop

end ResourceServer
