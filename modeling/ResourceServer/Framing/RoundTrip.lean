import Mathlib.Data.List.Basic
import ResourceServer.Framing.Stream

/-!
# Framing round trip

What the send nodes put on the wire, cut anywhere and delivered in any pieces, is
posted again frame by frame: the same ids, the same bodies, in the same order, and
nothing of the frame that the cut leaves unfinished.
-/

namespace ResourceServer

open Transition PrefixCode

/-- The bytes of `SendNode (data, L, id)` for a message. -/
def sendFrame (fresh : Nat → Byte) (f : Frame) : Bytes :=
  (SendNode.new fresh f.body (BitVec.ofNat 32 f.body.length) f.id).buffer

/-- Below the sign bit of the length field a send node is the frame of its message. -/
theorem sendFrame_eq (fresh : Nat → Byte) {f : Frame} (h : f.body.length < 2 ^ 31) :
    sendFrame fresh f = f.encode := by
  apply SendNode.buffer_new fresh f
  rw [headTotalLen]
  omega

/-- A concatenation of send nodes is a stream of frames. -/
theorem flatMap_sendFrame (fresh : Nat → Byte) {fs : List Frame}
    (h : ∀ f ∈ fs, f.body.length < 2 ^ 31) :
    fs.flatMap (sendFrame fresh) = fs.flatMap Frame.encode :=
  List.flatMap_congr fun f hf => sendFrame_eq fresh (h f hf)

/-- Message lengths below `2 ^ 31` are read as non-negative. -/
theorem lengthOk_of_lt {f : Frame} (h : f.body.length < 2 ^ 31) :
    LengthOk (BitVec.ofNat 32 f.body.length) := by
  apply Or.inl
  rw [f.toNat_length]
  exact h

namespace ReadLoop

/-- The invariant along a stream of send nodes. -/
theorem holds_of_sent {mem fresh : Nat → Byte} {fs : List Frame}
    (hfs : ∀ f ∈ fs, f.body.length < 2 ^ 31) {as : List ReadAction} {s : ReadLoop}
    (hrun : run step (ReadLoop.fresh mem) as = some s)
    (harr : arrived as <+: fs.flatMap (sendFrame fresh)) : s.Holds (arrived as) := by
  rw [flatMap_sendFrame fresh hfs] at harr
  exact holds_of_run (along_of_stream (fun f hf => lengthOk_of_lt (hfs f hf)) hrun harr) hrun

/-- What has been posted is at every moment an initial part of what was sent. -/
theorem frames_prefix_of_sent {mem fresh : Nat → Byte} {fs : List Frame}
    (hfs : ∀ f ∈ fs, f.body.length < 2 ^ 31) {as : List ReadAction} {s : ReadLoop}
    (hrun : run step (ReadLoop.fresh mem) as = some s)
    (harr : arrived as <+: fs.flatMap (sendFrame fresh)) : s.frames <+: fs := by
  obtain ⟨⟨part, hsplit, _⟩, _⟩ := holds_of_sent hfs hrun harr
  rw [flatMap_sendFrame fresh hfs, hsplit, List.append_assoc] at harr
  exact Frame.prefixFree_encode.of_flatMap Frame.encode_ne_nil ((List.prefix_append _ _).trans harr)

/-- Once all that arrived is consumed, exactly the frames wholly inside it are posted. -/
theorem frames_eq_wholeIn {mem fresh : Nat → Byte} {fs : List Frame}
    (hfs : ∀ f ∈ fs, f.body.length < 2 ^ 31) {as : List ReadAction} {s : ReadLoop}
    (hrun : run step (ReadLoop.fresh mem) as = some s)
    (harr : arrived as <+: fs.flatMap (sendFrame fresh)) (hc : s.Consumed) :
    s.frames = wholeIn (sendFrame fresh) (arrived as).length fs := by
  obtain ⟨⟨part, hsplit, hr⟩, _⟩ := holds_of_sent hfs hrun harr
  rw [hc.1, List.append_nil] at hsplit
  rw [flatMap_sendFrame fresh hfs, hsplit] at harr
  rw [wholeIn_congr (fun f hf => sendFrame_eq fresh (hfs f hf)), hsplit,
    Frame.prefixFree_encode.wholeIn_eq Frame.encode_ne_nil harr (hc.incomplete hr)]

/-- Behind a whole stream the session waits for the next head. -/
theorem waits_for_head {mem fresh : Nat → Byte} {fs : List Frame}
    (hfs : ∀ f ∈ fs, f.body.length < 2 ^ 31) {as : List ReadAction} {s : ReadLoop}
    (hrun : run step (ReadLoop.fresh mem) as = some s)
    (harr : arrived as = fs.flatMap (sendFrame fresh)) (hc : s.Consumed) :
    s.receiver.pending = some .readHead ∧ s.receiver.data = [] := by
  have hpre : arrived as <+: fs.flatMap (sendFrame fresh) := by
    simp only [harr, List.prefix_rfl]
  have hholds := holds_of_sent hfs hrun hpre
  rw [harr, flatMap_sendFrame fresh hfs] at hholds
  obtain ⟨_, hr⟩ := (hholds.frames_eq hc).2
  obtain ⟨_, op, hop, _⟩ := hc
  rw [Option.mem_def] at hop
  simp only [hop] at hr
  cases op with
  | readHead => exact ⟨hop, hr.1.symm⟩
  | readMessageFull n =>
    obtain ⟨_, node, _, _, hpart⟩ := hr
    have hl := congrArg List.length hpart
    simp only [List.length_nil, List.length_append, RecvNode.head, length_hostToNetworkShort,
      headIdLen] at hl
    omega

/-- Round trip under any segmentation. For messages of length below `2 ^ 31`, a
prefix of the concatenated send nodes delivered in any pieces: the posted nodes
are complete and are at every moment an initial part of what was sent; a session
without a read error runs on to consume the prefix; having consumed it, it has
posted exactly the frames wholly inside it, and behind the whole stream it waits
for a head. -/
theorem roundTrip (mem fresh : Nat → Byte) (fs : List Frame)
    (hfs : ∀ f ∈ fs, f.body.length < 2 ^ 31) (as : List ReadAction) (s : ReadLoop)
    (hrun : run step (ReadLoop.fresh mem) as = some s)
    (harr : arrived as <+: fs.flatMap (sendFrame fresh)) :
    (∀ node ∈ s.posted, node.Complete) ∧ s.frames <+: fs ∧
      (s.receiver.pending ≠ none →
        ∃ bs t, run step s bs = some t ∧ (∀ b ∈ bs, Local b) ∧ t.Consumed) ∧
      (s.Consumed → s.frames = wholeIn (sendFrame fresh) (arrived as).length fs ∧
        (arrived as = fs.flatMap (sendFrame fresh) →
          s.frames = fs ∧ s.receiver.pending = some .readHead ∧ s.receiver.data = [])) := by
  have hholds := holds_of_sent hfs hrun harr
  refine ⟨hholds.complete, frames_prefix_of_sent hfs hrun harr, ?_, fun hc => ⟨?_, ?_⟩⟩
  · rw [flatMap_sendFrame fresh hfs] at harr
    exact exists_consumed (fun f hf => lengthOk_of_lt (hfs f hf)) hholds harr
  · exact frames_eq_wholeIn hfs hrun harr hc
  · intro hall
    refine ⟨?_, waits_for_head hfs hrun hall hc⟩
    rw [frames_eq_wholeIn hfs hrun harr hc, hall]
    have hw := wholeIn_append (sendFrame fresh) fs [] 0
    rwa [Nat.add_zero, List.append_nil, wholeIn, List.append_nil] at hw

/-- Two messages, delivered cut inside the head and the body of the first and between the head and
the body of the second. -/
private def hiSchedule : List ReadAction :=
  [.arrive [3, 233, 0], .readSome 3, .arrive [0, 0, 2, 104], .readSome 3, .complete fun _ => 9,
    .readSome 1, .arrive [105, 3, 233, 0, 0, 0, 1], .readSome 1, .complete fun _ => 9, .readSome 6,
    .complete fun _ => 9, .arrive [111], .readSome 1, .complete fun _ => 9]

theorem roundTrip_two :
    ∃ s, run step (ReadLoop.fresh fun _ => 7) hiSchedule = some s ∧
      s.frames = [⟨.idTestMsgReq, [104, 105], by decide⟩, ⟨.idTestMsgReq, [111], by decide⟩] ∧
      s.receiver.pending = some .readHead ∧ s.receiver.data = [] := by
  have hrun : (run step (ReadLoop.fresh fun _ => 7) hiSchedule).any (decide ·.Consumed) := by
    decide +kernel
  obtain ⟨s, hs, hc⟩ := (Option.any_eq_true _ _).mp hrun
  have harr : arrived hiSchedule = [(⟨.idTestMsgReq, [104, 105], by decide⟩ : Frame),
      ⟨.idTestMsgReq, [111], by decide⟩].flatMap (sendFrame fun _ => 5) := by
    decide +kernel
  have hpre : arrived hiSchedule <+: [(⟨.idTestMsgReq, [104, 105], by decide⟩ : Frame),
      ⟨.idTestMsgReq, [111], by decide⟩].flatMap (sendFrame fun _ => 5) := by
    simp only [harr, List.prefix_rfl]
  obtain ⟨_, _, _, hconsumed⟩ := roundTrip (fun _ => 7) (fun _ => 5)
    [⟨.idTestMsgReq, [104, 105], by decide⟩, ⟨.idTestMsgReq, [111], by decide⟩] (by decide)
    hiSchedule s hs hpre
  exact ⟨s, hs, (hconsumed (of_decide_eq_true hc)).2 harr⟩

end ReadLoop

end ResourceServer
