import ResourceServer.Framing.RoundTrip

/-!
# Encoding again what was received

The receive loop on arbitrary bytes. It reads exactly the length fields the stream
announces, and where these are not negative the send nodes of what it has posted
are the stream itself, up to an end that stops inside a frame. Two streams of whole
frames are told apart by what is posted.
-/

namespace ResourceServer

open Transition PrefixCode

/-- A length field is not negative below its sign bit. -/
theorem toInt_length_nonneg_iff (len : BitVec 32) : 0 ≤ len.toInt ↔ len.toNat < 2 ^ 31 := by
  have hlt := len.isLt
  rw [BitVec.toInt_eq_toNat_cond]
  split <;> omega

/-- Length fields that are not negative are admissible. -/
theorem lengthOk_of_nonneg {len : BitVec 32} (h : 0 ≤ len.toInt) : LengthOk len :=
  Or.inl ((toInt_length_nonneg_iff len).mp h)

/-- A stream announces the lengths of its first frames. -/
theorem announces_of_mem {fs : List Frame} {f : Frame} (hf : f ∈ fs) (rest : Bytes) :
    Announces (fs.flatMap Frame.encode ++ rest) (BitVec.ofNat 32 f.body.length) := by
  obtain ⟨before, after, rfl⟩ := List.append_of_mem hf
  refine ⟨before, f.id, f.body ++ (after.flatMap Frame.encode ++ rest), ?_⟩
  simp only [List.flatMap_append, List.flatMap_cons, Frame.encode, Frame.head, List.append_assoc]

namespace ReadLoop

/-- The heads behind the posted nodes and the node being filled carried fields in `C`. -/
structure HeadsIn (C : BitVec 32 → Prop) (s : ReadLoop) : Prop where
  posted : ∀ node ∈ s.posted, C node.totalLen
  filling : ∀ n node, s.receiver.pending = some (.readMessageFull n) →
    s.receiver.recvNode = some node → C node.totalLen

/-- No head has been read yet. -/
theorem headsIn_fresh (C : BitVec 32 → Prop) (mem : Nat → Byte) : (fresh mem).HeadsIn C :=
  ⟨fun _ hn => absurd hn List.not_mem_nil, fun _ _ hp _ => by cases hp⟩

/-- A handled head is that of the node it starts, and no other step changes a length. -/
theorem HeadsIn.step {C : BitVec 32 → Prop} {arr : Bytes} {s t : ReadLoop} {a : ReadAction}
    (h : s.HeadsIn C) (hh : s.Holds arr) (hok : HeadField C s a) (hs : s.step a = some t) :
    t.HeadsIn C := by
  cases a with
  | arrive piece =>
    cases hs
    exact ⟨h.posted, h.filling⟩
  | readSome k =>
    obtain ⟨r, hr, rfl⟩ := readSome_cases hs
    obtain ⟨_, _, _, rfl⟩ := Receiver.readSome_cases hr
    exact ⟨h.posted, h.filling⟩
  | complete mem =>
    obtain ⟨r, node, hcomp, rfl⟩ := completed_cases hs
    obtain ⟨⟨part, _, hr⟩, _⟩ := hh
    rcases complete_cases hcomp with ⟨hp, hd, rfl, rfl⟩ | ⟨n, cur, hp, hd, hn, he⟩
    · refine ⟨by simpa using h.posted, fun n node _ hnode => ?_⟩
      have hlen := hok hp hd
      rw [← Receiver.headBodyLen_fillHead hr.1 hd] at hlen
      rw [Receiver.onReadHead, if_neg (by rw [hd]; decide)] at hnode
      cases hnode
      exact hlen
    · have hcur := h.filling n cur hp hn
      rcases Receiver.onReadMessageFull_cases he with ⟨_, rfl, rfl⟩ | ⟨_, rfl, rfl⟩
      · refine ⟨fun node hnode => ?_, fun _ _ hp' _ => by cases hp'⟩
        rcases List.mem_append.mp hnode with hold | hnew
        · exact h.posted node hold
        · cases List.mem_singleton.mp hnew
          exact hcur
      · refine ⟨by simpa using h.posted, fun _ node _ hnode => ?_⟩
        cases hnode
        exact hcur
  | fail =>
    obtain rfl := failed_cases hs
    exact ⟨h.posted, fun _ _ hp _ => by cases hp⟩

/-- Along a run that handles fields in `C` only, the heads it has read are such. -/
theorem headsIn_of_run {C : BitVec 32 → Prop} (hC : ∀ len, C len → LengthOk len)
    {mem : Nat → Byte} {as : List ReadAction} {s : ReadLoop}
    (hok : Along step (HeadField C) (fresh mem) as) (h : run step (fresh mem) as = some s) :
    s.HeadsIn C := by
  have hboth : s.Holds (arrived as) ∧ s.HeadsIn C := by
    refine run_history_along (P := fun as s => s.Holds (arrived as) ∧ s.HeadsIn C)
      ⟨holds_fresh mem, headsIn_fresh C mem⟩ ?_ hok h
    intro as s a t hs ha ht
    rw [arrived_append]
    exact ⟨hs.1.step (ha.mono hC) ht, hs.2.step hs.1 ha ht⟩
  exact hboth.2

/-- A loop that waits behind a whole head fills the node of that head. -/
theorem Consumed.exists_filling {s : ReadLoop} (hc : s.Consumed) {part : Bytes}
    (hr : s.receiver.Reads part) (hhead : headTotalLen ≤ part.length) :
    ∃ n node rest, s.receiver.pending = some (.readMessageFull n) ∧
      s.receiver.recvNode = some node ∧ part = node.head ++ rest := by
  obtain ⟨_, op, hop, hlt⟩ := hc
  obtain ⟨_, hr⟩ := hr
  rw [Option.mem_def] at hop
  simp only [hop] at hr
  cases op with
  | readHead =>
    rw [hr.1] at hhead
    exact absurd hlt (Nat.not_lt.mpr hhead)
  | readMessageFull n =>
    obtain ⟨_, node, hn, _, hpart⟩ := hr
    rw [List.append_assoc] at hpart
    exact ⟨n, node, _, hop, hn, hpart⟩

/-- A loop that has consumed its stream has read every length field it announces. -/
theorem HeadsIn.of_announces {C : BitVec 32 → Prop} {arr : Bytes} {s : ReadLoop} (h : s.HeadsIn C)
    (hh : s.Holds arr) (hc : s.Consumed) {len : BitVec 32} (harr : Announces arr len) : C len := by
  obtain ⟨⟨part, hsplit, hr⟩, hcomplete⟩ := hh
  rw [hc.1, List.append_nil] at hsplit
  obtain ⟨fs, id, rest, hann⟩ := harr
  obtain ⟨cs, hcs⟩ : fs <+: s.frames := by
    apply Frame.prefixFree_encode.of_flatMap_append (hc.incomplete hr)
    rw [← hsplit, hann]
    exact List.prefix_append _ _
  rw [hann, ← hcs, List.flatMap_append, List.append_assoc (fs.flatMap Frame.encode),
    List.append_cancel_left_eq] at hsplit
  cases cs with
  | cons f cs =>
    rw [List.flatMap_cons, List.append_assoc f.encode] at hsplit
    have hmem : f ∈ s.frames := hcs ▸ List.mem_append_right _ List.mem_cons_self
    obtain ⟨node, hnode, rfl⟩ := List.mem_map.mp hmem
    rw [Frame.length_of_append hsplit, (hcomplete node hnode).length_body, BitVec.ofNat_toNat,
      BitVec.setWidth_eq]
    exact h.posted node hnode
  | nil =>
    rw [List.flatMap_nil, List.nil_append] at hsplit
    have hhead : headTotalLen ≤ part.length := by
      rw [← hsplit]
      simp only [List.length_append, length_hostToNetworkShort, length_hostToNetworkLong,
        headTotalLen, headIdLen, headDataLen]
      omega
    obtain ⟨n, node, more, hpending, hn, rfl⟩ := hc.exists_filling hr hhead
    rw [(Frame.head_append_inj hsplit).2]
    exact h.filling n node hpending hn

/-- The loop that consumes a stream reads the length fields the stream announces: it
handles admissible ones in `C` only exactly if the stream announces no other. -/
theorem along_iff_announces {C : BitVec 32 → Prop} (hC : ∀ len, C len → LengthOk len)
    {mem : Nat → Byte} {as : List ReadAction} {s : ReadLoop}
    (h : run step (fresh mem) as = some s) (hc : s.Consumed) :
    Along step (HeadField C) (fresh mem) as ↔ ∀ len, Announces (arrived as) len → C len := by
  constructor
  · intro hok len hlen
    have hholds := holds_of_run (hok.mono fun _ _ ha => ha.mono hC) h
    exact (headsIn_of_run hC hok h).of_announces hholds hc hlen
  · exact along_of_announces hC h

/-- The invariant along a stream that announces no negative length. -/
theorem holds_of_nonneg {mem : Nat → Byte} {as : List ReadAction} {s : ReadLoop}
    (hrun : run step (fresh mem) as = some s)
    (hnonneg : ∀ len, Announces (arrived as) len → 0 ≤ len.toInt) : s.Holds (arrived as) :=
  holds_of_run (along_of_announces (fun _ hlen => hlen) hrun fun len hlen =>
    lengthOk_of_nonneg (hnonneg len hlen)) hrun

/-- The posted frames are short when the stream announces no negative length. -/
theorem Holds.length_lt {arr : Bytes} {s : ReadLoop} (h : s.Holds arr)
    (hnonneg : ∀ len, Announces arr len → 0 ≤ len.toInt) {f : Frame} (hf : f ∈ s.frames) :
    f.body.length < 2 ^ 31 := by
  obtain ⟨⟨part, rfl, _⟩, _⟩ := h
  rw [List.append_assoc] at hnonneg
  have hlen := hnonneg _ (announces_of_mem hf (part ++ s.socket))
  rwa [toInt_length_nonneg_iff, f.toNat_length] at hlen

/-- Send nodes of what was posted give back the bytes that were received, up to an end
that stops inside a frame. -/
theorem exists_cut_of_consumed {mem : Nat → Byte} (mem' : Nat → Byte) {as : List ReadAction}
    {s : ReadLoop} (hrun : run step (fresh mem) as = some s)
    (hnonneg : ∀ len, Announces (arrived as) len → 0 ≤ len.toInt) (hc : s.Consumed) :
    ∃ rest, arrived as = s.frames.flatMap (sendFrame mem') ++ rest ∧ Frame.Cut rest := by
  have hholds := holds_of_nonneg hrun hnonneg
  rw [flatMap_sendFrame mem' fun f hf => hholds.length_lt hnonneg hf]
  obtain ⟨⟨part, hsplit, hr⟩, _⟩ := hholds
  rw [hc.1, List.append_nil] at hsplit
  exact ⟨part, hsplit, hc.cut hr⟩

/-- A stream of whole frames, once consumed, is what was posted. -/
theorem frames_eq_of_whole {mem : Nat → Byte} {as : List ReadAction} {s : ReadLoop}
    (hrun : run step (fresh mem) as = some s)
    (hnonneg : ∀ len, Announces (arrived as) len → 0 ≤ len.toInt) (hc : s.Consumed)
    {fs : List Frame} (hfs : arrived as = fs.flatMap Frame.encode) : s.frames = fs := by
  have hholds := holds_of_nonneg hrun hnonneg
  rw [hfs] at hholds
  exact (hholds.frames_eq hc).1

/-- Encoding again what was received gives back the stream. Of any bytes that announce
no negative length, in any pieces: a session without a read error runs on to consume
them; having done so, the send nodes of what it has posted are these bytes up to an
end that stops inside a frame; and it has posted the same as another session only if
their streams, when both are of whole frames, are the same. -/
theorem reencode (mem fresh : Nat → Byte) (as : List ReadAction) (s : ReadLoop)
    (hrun : run step (ReadLoop.fresh mem) as = some s)
    (hnonneg : ∀ len, Announces (arrived as) len → 0 ≤ len.toInt) :
    (s.receiver.pending ≠ none →
      ∃ bs t, run step s bs = some t ∧ (∀ b ∈ bs, Local b) ∧ t.Consumed) ∧
    (s.Consumed →
      (∃ rest, arrived as = s.frames.flatMap (sendFrame fresh) ++ rest ∧ Frame.Cut rest) ∧
      ∀ mem' bs t, run step (ReadLoop.fresh mem') bs = some t →
        (∀ len, Announces (arrived bs) len → 0 ≤ len.toInt) → t.Consumed →
        (∃ fs : List Frame, arrived as = fs.flatMap Frame.encode) →
        (∃ fs : List Frame, arrived bs = fs.flatMap Frame.encode) →
        s.frames = t.frames → arrived as = arrived bs) := by
  refine ⟨?_, fun hc => ⟨exists_cut_of_consumed fresh hrun hnonneg hc, ?_⟩⟩
  · apply exists_consumed_of_announces (holds_of_nonneg hrun hnonneg)
    exact fun len hlen => lengthOk_of_nonneg (hnonneg len hlen)
  · rintro mem' bs t hrun' hnonneg' hc' ⟨fs, hfs⟩ ⟨gs, hgs⟩ hsame
    rw [frames_eq_of_whole hrun hnonneg hc hfs, frames_eq_of_whole hrun' hnonneg' hc' hgs] at hsame
    rw [hfs, hgs, hsame]

/-- An empty message of an unknown id, a message, and the first bytes of a third one. -/
private def threeStarts : List ReadAction :=
  [.arrive [255, 255, 0], .readSome 3, .arrive [0, 0, 0, 3, 233], .readSome 3,
    .complete fun _ => 0, .complete fun _ => 0, .arrive [0, 0, 0, 1, 0, 9], .readSome 2,
    .readSome 4, .complete fun _ => 4, .readSome 1, .complete fun _ => 4, .readSome 1]

theorem reencode_three : ∃ s rest, run step (ReadLoop.fresh fun _ => 1) threeStarts = some s ∧
    arrived threeStarts = s.frames.flatMap (sendFrame fun _ => 2) ++ rest ∧ Frame.Cut rest := by
  have hrun : (run step (ReadLoop.fresh fun _ => 1) threeStarts).any (decide ·.Consumed) := by
    decide +kernel
  obtain ⟨s, hs, hc⟩ := (Option.any_eq_true _ _).mp hrun
  let fs : List Frame := [⟨⟨0xFFFF⟩, [], by decide⟩, ⟨.idTestMsgReq, [0], by decide⟩,
    ⟨⟨0x0900⟩, [], by decide⟩]
  have hall : ∀ f ∈ fs, 0 ≤ (BitVec.ofNat 32 f.body.length).toInt := by decide
  have hprefix : arrived threeStarts <+: fs.flatMap Frame.encode := by decide +kernel
  have hnonneg : ∀ len, Announces (arrived threeStarts) len → 0 ≤ len.toInt := by
    intro len hlen
    obtain ⟨f, hf, rfl⟩ := hlen.of_frames hprefix
    exact hall f hf
  obtain ⟨rest, hrest⟩ := ((reencode (fun _ => 1) (fun _ => 2) threeStarts s hs hnonneg).2
    (of_decide_eq_true hc)).1
  exact ⟨s, rest, hs, hrest⟩

end ReadLoop

end ResourceServer
