import ResourceServer.Dispatch.Fifo
import ResourceServer.Framing.RoundTrip

/-!
# What a handler is given of a body

A full node holds its whole message and knows its length, but the worker converts the
pointer to the message into a string, and the string ends at the first zero.
-/

namespace ResourceServer

open Transition Memory

variable {ι : Type*}

/-- The call for a complete node of a registered id carries its message up to the first zero. -/
theorem RecvNode.Complete.invocation_eq {node : RecvNode} (h : node.Complete) (i : ι)
    {handler : CallBack} (hid : callbackHandler node.frame.id = some handler) :
    (LogicNode.mk i node).invocation =
      some ⟨handler, i, node.frame.id, cString 0 node.frame.body⟩ := by
  have hmsg : node.frame.id = node.msgId := rfl
  rw [LogicNode.invocation, h.cString_body, ← hmsg, hid, Option.map_some]

/-- A worker that found the predicate true handles the front, if its id is registered. -/
theorem Dispatch.step_work_awake {d : Dispatch ι} {front : LogicNode ι} {rest : List (LogicNode ι)}
    {call : Invocation ι} (hpc : d.worker = .awake) (hq : d.logicQue = front :: rest)
    (hcall : front.invocation = some call) :
    d.step .work = some { d with invoked := d.invoked ++ [call], worker := .called } := by
  simp only [step, dealMessage, hpc, hq, hcall]

namespace ReadLoop

/-- The posted nodes hold the frames that were sent, position by position. -/
theorem frame_posted {mem fresh : Nat → Byte} {fs : List Frame}
    (hfs : ∀ f ∈ fs, f.body.length < 2 ^ 31) {as : List ReadAction} {s : ReadLoop}
    (hrun : run step (ReadLoop.fresh mem) as = some s)
    (harr : arrived as <+: fs.flatMap (sendFrame fresh)) {k : Nat} {node : RecvNode}
    (hnode : s.posted[k]? = some node) : fs[k]? = some node.frame := by
  obtain ⟨more, rfl⟩ := frames_prefix_of_sent hfs hrun harr
  have hframe : s.frames[k]? = some node.frame := by
    rw [frames, List.getElem?_map, hnode, Option.map_some]
  rw [List.getElem?_append_left (List.getElem?_eq_some_iff.mp hframe).1, hframe]

/-- Of every frame with a registered id, wherever it stands in what a peer sends and however
that is cut: once its node is full and at the front of the queue, the worker calls the
frame's handler, and the string it passes is the body, with its length, exactly when the
body has no zero byte. -/
theorem handed_whole_iff (mem fresh : Nat → Byte) (fs : List Frame)
    (hfs : ∀ f ∈ fs, f.body.length < 2 ^ 31) (as : List ReadAction) (s : ReadLoop)
    (hrun : run step (ReadLoop.fresh mem) as = some s)
    (harr : arrived as <+: fs.flatMap (sendFrame fresh)) (k : Nat) (f : Frame)
    (hf : fs[k]? = some f) (handler : CallBack) (hid : callbackHandler f.id = some handler)
    (node : RecvNode) (hnode : s.posted[k]? = some node) (i : ι) (d : Dispatch ι)
    (rest : List (LogicNode ι)) (hpc : d.worker = .awake) (hq : d.logicQue = ⟨i, node⟩ :: rest) :
    ∃ data t, d.step .work = some t ∧ t.invoked = d.invoked ++ [⟨handler, i, f.id, data⟩] ∧
      (data.length = f.body.length ∧ data = f.body ↔ 0 ∉ f.body) := by
  obtain rfl : f = node.frame :=
    Option.some.inj (hf.symm.trans (frame_posted hfs hrun harr hnode))
  have hcomplete : node.Complete :=
    (holds_of_sent hfs hrun harr).complete node (List.mem_of_getElem? hnode)
  refine ⟨_, _, Dispatch.step_work_awake hpc hq (hcomplete.invocation_eq i hid), rfl, ?_⟩
  rw [← cString_eq_self_iff]
  exact ⟨And.right, fun h => ⟨congrArg List.length h, h⟩⟩

/-- A message of an unknown id, and a test message whose length is cut in two. -/
private def secondMessage : List ReadAction :=
  [.arrive [0, 7, 0, 0, 0, 1, 0, 3, 233, 0], .readSome 6, .complete fun _ => 1, .readSome 1,
    .complete fun _ => 1, .readSome 3, .arrive [0, 0, 2, 104, 105], .readSome 3,
    .complete fun _ => 1, .readSome 2, .complete fun _ => 1]

theorem handed_whole_iff_second : ∃ s node d t, run step (ReadLoop.fresh fun _ => 0) secondMessage =
      some s ∧ s.posted[1]? = some node ∧
    run Dispatch.step Dispatch.init [.post ⟨(), node⟩, .work, .work] = some d ∧
    d.step .work = some t ∧ t.invoked = [⟨.testSend, (), .idTestMsgReq, [104, 105]⟩] := by
  let fs : List Frame := [⟨⟨7⟩, [0], by decide⟩, ⟨.idTestMsgReq, [104, 105], by decide⟩]
  have hrun : (run step (ReadLoop.fresh fun _ => 0) secondMessage).any fun s =>
      s.posted[1]?.isSome := by decide +kernel
  obtain ⟨s, hs, hposted⟩ := (Option.any_eq_true _ _).mp hrun
  obtain ⟨node, hnode⟩ := Option.isSome_iff_exists.mp hposted
  obtain ⟨data, t, hstep, hinvoked, hiff⟩ := handed_whole_iff (fun _ => 0) (fun _ => 0) fs
    (by decide) secondMessage s hs (by decide +kernel) 1 _ rfl .testSend rfl node hnode ()
    ⟨[⟨(), node⟩], false, .awake, .notCalled, [⟨(), node⟩], []⟩ [] rfl rfl
  refine ⟨s, node, _, t, hs, hnode, rfl, hstep, ?_⟩
  rw [hinvoked, (hiff.mpr (by decide)).2]
  rfl

/-- A test message with a zero in its middle. -/
private def zeroMessage : List ReadAction :=
  [.arrive [3, 233, 0, 0, 0, 3, 104, 0, 105], .readSome 6, .complete fun _ => 1, .readSome 3,
    .complete fun _ => 1]

/-- The handler of a test message `h`, zero, `i` is given `h` alone. -/
theorem not_handed_whole : ∃ s node d, run step (ReadLoop.fresh fun _ => 0) zeroMessage = some s ∧
    s.posted = [node] ∧ node.frame.body = [104, 0, 105] ∧
    run Dispatch.step Dispatch.init [.post ⟨(), node⟩, .work, .work, .work] = some d ∧
    d.invoked = [⟨.testSend, (), .idTestMsgReq, [104]⟩] := by
  have hrun : (run step (ReadLoop.fresh fun _ => 0) zeroMessage).any fun s =>
      s.posted == [⟨⟨[104, 0, 105, 0], 3, 3⟩, .idTestMsgReq⟩] := by decide +kernel
  obtain ⟨s, hs, hposted⟩ := (Option.any_eq_true _ _).mp hrun
  have hdispatch : (run Dispatch.step Dispatch.init
      [.post ⟨(), ⟨⟨[104, 0, 105, 0], 3, 3⟩, .idTestMsgReq⟩⟩, .work, .work, .work]).any
      fun d => d.invoked == [⟨.testSend, (), .idTestMsgReq, [104]⟩] := by decide +kernel
  obtain ⟨d, hd, hinvoked⟩ := (Option.any_eq_true _ _).mp hdispatch
  exact ⟨s, _, d, hs, eq_of_beq hposted, rfl, hd, eq_of_beq hinvoked⟩

end ReadLoop

end ResourceServer
