import ResourceServer.Framing.Invariant

/-!
# The receive loop along a byte stream

The invariant of the receiver, carried along whole schedules: the bytes that have
arrived are the frames of the posted nodes, the part of the next frame that was
read, and what still waits in the socket. A stream made of frames with admissible
lengths meets the side condition by itself, and the loop consumes it to the end.
-/

namespace ResourceServer

open Transition PrefixCode

/-- The frames of the posted nodes, in posting order. -/
def ReadLoop.frames (s : ReadLoop) : List Frame := s.posted.map RecvNode.frame

/-- The bytes of `arr` are the posted frames, the part being read and the socket. -/
structure ReadLoop.Holds (arr : Bytes) (s : ReadLoop) : Prop where
  split : ∃ part, arr = s.frames.flatMap Frame.encode ++ part ++ s.socket ∧ s.receiver.Reads part
  complete : ∀ node ∈ s.posted, node.Complete

/-- The side condition on steps: a head is handled only with a length field in `C`. -/
def HeadField (C : BitVec 32 → Prop) (s : ReadLoop) : ReadAction → Prop
  | .complete _ => s.receiver.pending = some .readHead → s.receiver.data.length = headTotalLen →
      C s.receiver.lengthField
  | _ => True

/-- A weaker condition holds of the same length fields. -/
theorem HeadField.mono {C D : BitVec 32 → Prop} (h : ∀ len, C len → D len) {s : ReadLoop}
    {a : ReadAction} (hC : HeadField C s a) : HeadField D s a := by
  cases a with
  | complete mem => exact fun hp hd => h _ (hC hp hd)
  | arrive piece => trivial
  | readSome k => trivial
  | fail => trivial

/-- The bytes that arrive in two schedules in turn. -/
theorem arrived_append (as bs : List ReadAction) :
    arrived (as ++ bs) = arrived as ++ arrived bs := List.flatMap_append

/-- The length fields of a stream: those of the heads behind its whole frames. -/
def Announces (arr : Bytes) (len : BitVec 32) : Prop :=
  ∃ (fs : List Frame) (id : ReqId) (rest : Bytes), arr = fs.flatMap Frame.encode ++
    (hostToNetworkShort id.enumToInt ++ hostToNetworkLong len ++ rest)

/-- What a stream announces, every longer one does. -/
theorem Announces.mono {arr arr' : Bytes} {len : BitVec 32} (h : Announces arr len)
    (harr : arr <+: arr') : Announces arr' len := by
  obtain ⟨fs, id, rest, rfl⟩ := h
  obtain ⟨more, rfl⟩ := harr
  refine ⟨fs, id, rest ++ more, ?_⟩
  simp only [List.append_assoc]

/-- A stream of frames announces the lengths of these frames only. -/
theorem Announces.of_frames {arr : Bytes} {len : BitVec 32} {fs : List Frame}
    (h : Announces arr len) (harr : arr <+: fs.flatMap Frame.encode) :
    ∃ f ∈ fs, len = BitVec.ofNat 32 f.body.length := by
  obtain ⟨gs, id, rest, rfl⟩ := h
  obtain ⟨cs, rfl, more, hcs⟩ := Frame.prefixFree_encode.split Frame.encode_ne_nil harr
  cases cs with
  | nil =>
    have hl := congrArg List.length hcs
    simp [headIdLen] at hl
  | cons f cs =>
    refine ⟨f, List.mem_append_right _ List.mem_cons_self, ?_⟩
    rw [List.flatMap_cons, List.append_assoc _ rest] at hcs
    exact Frame.length_of_append hcs

namespace ReadLoop

/-- A new read loop holds nothing. -/
theorem holds_fresh (mem : Nat → Byte) : (fresh mem).Holds [] :=
  ⟨⟨[], rfl, Receiver.reads_start mem⟩, fun _ hn => absurd hn List.not_mem_nil⟩

/-- A completion of the pending read, by the kind of read. -/
theorem complete_cases {r r' : Receiver} {mem : Nat → Byte} {node : Option RecvNode}
    (h : r.complete mem = some (r', node)) :
    (r.pending = some .readHead ∧ r.data.length = headTotalLen ∧ r' = r.onReadHead mem ∧
        node = none) ∨
      ∃ n cur, r.pending = some (.readMessageFull n) ∧
        r.data.length = (ReadOp.readMessageFull n).size ∧ r.recvNode = some cur ∧
        r.onReadMessageFull n cur = (r', node) := by
  rw [Receiver.complete, Option.bind_eq_some_iff] at h
  obtain ⟨op, hop, h⟩ := h
  split at h
  · rename_i hfull
    cases op with
    | readHead =>
      cases h
      exact Or.inl ⟨hop, hfull, rfl, rfl⟩
    | readMessageFull n =>
      obtain ⟨cur, hcur, h⟩ := Option.map_eq_some_iff.mp h
      exact Or.inr ⟨n, cur, hop, hfull, hcur, h⟩
  · contradiction

/-- The handler of a read without error starts the next read. -/
theorem pending_of_complete {r r' : Receiver} {mem : Nat → Byte} {node : Option RecvNode}
    (h : r.complete mem = some (r', node)) : r'.pending ≠ none := by
  rcases complete_cases h with ⟨_, hd, rfl, rfl⟩ | ⟨n, cur, _, _, _, he⟩
  · rw [(Receiver.onReadHead_eq mem hd).2]
    exact Option.some_ne_none _
  · rcases Receiver.onReadMessageFull_cases he with ⟨_, rfl, _⟩ | ⟨_, rfl, _⟩
    · exact Option.some_ne_none _
    · exact Option.some_ne_none _

/-- One step keeps the invariant; the arriving bytes are those the step delivers. -/
theorem Holds.step {arr : Bytes} {s t : ReadLoop} {a : ReadAction} (h : s.Holds arr)
    (hok : HeadField LengthOk s a) (hs : s.step a = some t) : t.Holds (arr ++ arrived [a]) := by
  obtain ⟨⟨part, rfl, hr⟩, hc⟩ := h
  cases a with
  | arrive piece =>
    cases hs
    refine ⟨⟨part, ?_, hr⟩, hc⟩
    simp [arrived, frames]
  | readSome k =>
    obtain ⟨r, hr', rfl⟩ := readSome_cases hs
    refine ⟨⟨part ++ s.socket.take k, ?_, hr.readSome hr'⟩, hc⟩
    simp [arrived, frames]
  | complete mem =>
    obtain ⟨r, node, hcomp, rfl⟩ := completed_cases hs
    rcases complete_cases hcomp with ⟨hp, hd, rfl, rfl⟩ | ⟨n, cur, hp, hd, hn, he⟩
    · refine ⟨⟨part, ?_, hr.onReadHead mem hp hd (hok hp hd)⟩, ?_⟩
      · simp [arrived, frames]
      · simpa using hc
    · rcases hr.onReadMessageFull hp hd hn with
        ⟨r', full, he', hr', _, hfull, hpart⟩ | ⟨r', n', he', hr', _⟩
      · cases he.symm.trans he'
        refine ⟨⟨[], ?_, hr'⟩, ?_⟩
        · simp [arrived, frames, hpart]
        · intro node hnode
          rcases List.mem_append.mp hnode with hold | hnew
          · exact hc node hold
          · exact List.mem_singleton.mp hnew ▸ hfull
      · cases he.symm.trans he'
        refine ⟨⟨part, ?_, hr'⟩, ?_⟩
        · simp [arrived, frames]
        · simpa using hc
  | fail =>
    obtain rfl := failed_cases hs
    refine ⟨⟨part, ?_, hr.1, trivial⟩, hc⟩
    simp [arrived, frames]

/-- The invariant along every run that handles admissible length fields only. -/
theorem holds_of_run {mem : Nat → Byte} {as : List ReadAction} {s : ReadLoop}
    (hok : Along step (HeadField LengthOk) (fresh mem) as) (h : run step (fresh mem) as = some s) :
    s.Holds (arrived as) := by
  refine run_history_along (P := fun as s => s.Holds (arrived as)) (holds_fresh mem) ?_ hok h
  intro as s a t hs ha ht
  rw [arrived_append]
  exact hs.step ha ht

/-- A head that was received is one of the stream, behind the posted frames. -/
theorem Holds.announces {arr : Bytes} {s : ReadLoop} (h : s.Holds arr)
    (hp : s.receiver.pending = some .readHead) (hd : s.receiver.data.length = headTotalLen) :
    Announces arr s.receiver.lengthField := by
  obtain ⟨⟨part, rfl, hr⟩, _⟩ := h
  simp only [Receiver.Reads, hp] at hr
  obtain ⟨_, rfl, _⟩ := hr
  refine ⟨s.frames, ⟨networkToHostShort (s.receiver.data.take headIdLen)⟩, s.socket, ?_⟩
  rw [ReqId.enumToInt, Receiver.lengthField,
    hostToNetworkShort_networkToHostShort (by rw [List.length_take, hd]; rfl),
    hostToNetworkLong_networkToHostLong (by rw [List.length_drop, hd]; rfl),
    List.take_append_drop, List.append_assoc]

/-- Inside a stream of frames, a received head carries the length of a frame of the stream. -/
theorem Holds.lengthField_eq {arr : Bytes} {s : ReadLoop} (h : s.Holds arr) {fs : List Frame}
    (harr : arr <+: fs.flatMap Frame.encode) (hp : s.receiver.pending = some .readHead)
    (hd : s.receiver.data.length = headTotalLen) :
    ∃ f ∈ fs, s.receiver.lengthField = BitVec.ofNat 32 f.body.length :=
  (h.announces hp hd).of_frames harr

/-- A stream whose length fields are admissible meets the side condition. -/
theorem along_of_announces {C : BitVec 32 → Prop} (hC : ∀ len, C len → LengthOk len)
    {mem : Nat → Byte} {as : List ReadAction} {s : ReadLoop}
    (h : run step (fresh mem) as = some s) (harr : ∀ len, Announces (arrived as) len → C len) :
    Along step (HeadField C) (fresh mem) as := by
  induction as using List.reverseRecOn generalizing s with
  | nil => trivial
  | append_singleton as a ih =>
    obtain ⟨t, ht, _⟩ := run_snoc_eq_some.mp h
    rw [arrived_append] at harr
    have hprev : ∀ len, Announces (arrived as) len → C len :=
      fun len hlen => harr len (hlen.mono (List.prefix_append _ _))
    have hok := ih ht hprev
    refine (along_snoc ht).mpr ⟨hok, ?_⟩
    cases a with
    | complete mem' =>
      intro hp hd
      have hholds := holds_of_run (hok.mono fun _ _ ha => ha.mono hC) ht
      exact hprev _ (hholds.announces hp hd)
    | arrive piece => trivial
    | readSome k => trivial
    | fail => trivial

/-- A stream of frames of admissible lengths meets the side condition. -/
theorem along_of_stream {mem : Nat → Byte} {as : List ReadAction} {s : ReadLoop} {fs : List Frame}
    (hfs : ∀ f ∈ fs, LengthOk (BitVec.ofNat 32 f.body.length))
    (h : run step (fresh mem) as = some s) (harr : arrived as <+: fs.flatMap Frame.encode) :
    Along step (HeadField LengthOk) (fresh mem) as := by
  apply along_of_announces (fun _ hlen => hlen) h
  intro len hlen
  obtain ⟨f, hf, rfl⟩ := hlen.of_frames harr
  exact hfs f hf

/-- When everything has been consumed, the part being read stops inside a frame. -/
theorem Consumed.cut {s : ReadLoop} (hw : s.Consumed) {part : Bytes}
    (hr : s.receiver.Reads part) : Frame.Cut part := by
  obtain ⟨_, op, hop, hlt⟩ := hw
  obtain ⟨_, hr⟩ := hr
  rw [Option.mem_def] at hop
  simp only [hop] at hr
  cases op with
  | readHead =>
    obtain ⟨rfl, _⟩ := hr
    exact Or.inl hlt
  | readMessageFull n =>
    obtain ⟨_, node, _, hfill, rfl⟩ := hr
    refine Or.inr ⟨node.msgId, node.totalLen,
      node.body.take node.currentLen.toNat ++ s.receiver.data, List.append_assoc _ _ _, ?_⟩
    have hc := hfill.copy_le
    rw [List.length_append, List.length_take]
    omega

/-- When everything has been consumed, the part being read is no complete frame. -/
theorem Consumed.incomplete {s : ReadLoop} (hw : s.Consumed) {part : Bytes}
    (hr : s.receiver.Reads part) : Incomplete Frame.encode part :=
  (hw.cut hr).incomplete

/-- A whole stream of frames, once consumed, has been posted, and nothing of a
further frame was read. -/
theorem Holds.frames_eq {s : ReadLoop} {fs : List Frame} (h : s.Holds (fs.flatMap Frame.encode))
    (hc : s.Consumed) : s.frames = fs ∧ s.receiver.Reads [] := by
  obtain ⟨⟨part, hsplit, hr⟩, _⟩ := h
  rw [hc.1, List.append_nil] at hsplit
  obtain ⟨cs, rfl, hcs⟩ := Frame.prefixFree_encode.split Frame.encode_ne_nil
    (show s.frames.flatMap Frame.encode ++ part <+: fs.flatMap Frame.encode by
      simp only [hsplit, List.prefix_rfl])
  rw [List.flatMap_append, List.append_cancel_left_eq] at hsplit
  cases cs with
  | nil =>
    rw [List.flatMap_nil] at hsplit
    subst hsplit
    exact ⟨(List.append_nil _).symm, hr⟩
  | cons c cs => exact absurd (hsplit ▸ List.prefix_append _ _) (hc.incomplete hr c)

/-- The steps of the session's own io thread on success. -/
def Local : ReadAction → Prop
  | .readSome _ | .complete _ => True
  | _ => False

/-- A step that is no arrival brings no bytes. -/
theorem arrived_of_local {a : ReadAction} (h : Local a) : arrived [a] = [] := by
  cases a with
  | arrive piece => exact h.elim
  | readSome k => rfl
  | complete mem => rfl
  | fail => rfl

/-- Completions that are due before the next byte of the socket is needed. -/
def due (r : Receiver) : Nat :=
  match r.pending with
  | some .readHead => if r.data.length = headTotalLen then 2 else 0
  | some (.readMessageFull n) => if r.data.length = (ReadOp.readMessageFull n).size then 1 else 0
  | none => 0

/-- The work left to the io thread. -/
def work (s : ReadLoop) : Nat := 3 * s.socket.length + due s.receiver

/-- No more than two completions are due. -/
theorem due_le (r : Receiver) : due r ≤ 2 := by
  unfold due
  split <;> (try split) <;> omega

/-- As long as something is left to consume, the io thread has a step, which
brings it closer to the end. -/
theorem Holds.exists_local {arr : Bytes} {s : ReadLoop} (h : s.Holds arr)
    (hp : s.receiver.pending ≠ none) (hc : ¬ s.Consumed) :
    ∃ a t, Local a ∧ s.step a = some t ∧ t.receiver.pending ≠ none ∧ t.work < s.work := by
  obtain ⟨⟨part, _, hr⟩, _⟩ := h
  obtain ⟨op, hop⟩ := Option.ne_none_iff_exists'.mp hp
  by_cases hlt : s.receiver.data.length < op.size
  · have hne : s.socket ≠ [] := fun he => hc ⟨he, op, hop, hlt⟩
    have hpos : 1 ≤ s.socket.length := List.length_pos_iff.mpr hne
    have htake : (s.socket.take 1).length = 1 := by rw [List.length_take]; omega
    have hread := Receiver.readSome_eq hop (List.ne_nil_of_length_pos (by omega))
      (show s.receiver.data.length + (s.socket.take 1).length ≤ op.size by omega)
    let r' : Receiver := { s.receiver with data := s.receiver.data ++ s.socket.take 1 }
    refine ⟨.readSome 1, ⟨s.socket.drop 1, r', s.posted⟩, trivial,
      by rw [ReadLoop.step, if_pos hpos, hread]; rfl, hp, ?_⟩
    have hd := due_le r'
    simp only [work, List.length_drop]
    omega
  · have hall := hr.2
    simp only [hop] at hall
    cases op with
    | readHead =>
      have hd : s.receiver.data.length = headTotalLen :=
        Nat.le_antisymm hall.2 (Nat.le_of_not_lt hlt)
      have hdue : due s.receiver = 2 := by simp only [due, hop, hd, if_true]
      obtain ⟨hdata, hnext⟩ := Receiver.onReadHead_eq (fun _ => 0) hd
      refine ⟨.complete fun _ => 0, ⟨s.socket, s.receiver.onReadHead fun _ => 0, s.posted ++ []⟩,
        trivial, by rw [ReadLoop.step, Receiver.complete_readHead _ hop hd]; rfl,
        hnext ▸ Option.some_ne_none _, ?_⟩
      rw [work, work, hdue]
      simp only [due, hnext, hdata]
      split <;> omega
    | readMessageFull n =>
      obtain ⟨hle, node, hn, hfill, _⟩ := hall
      have hd : s.receiver.data.length = (ReadOp.readMessageFull n).size :=
        Nat.le_antisymm hle (Nat.le_of_not_lt hlt)
      have hdue : due s.receiver = 1 := by simp only [due, hop, hd, if_true]
      have hstep := Receiver.complete_readMessageFull (fun _ => 0) hop hd hn
      rcases hr.onReadMessageFull hop hd hn with
        ⟨r', full, he, hr', hp', _⟩ | ⟨r', n', he, _, hdata, hp', hpos⟩
      · refine ⟨.complete fun _ => 0, ⟨s.socket, r', s.posted ++ [full]⟩, trivial,
          by rw [ReadLoop.step, hstep, he]; rfl, hp' ▸ Option.some_ne_none _, ?_⟩
        have hnil := hr'.2
        simp only [hp'] at hnil
        rw [work, work, hdue]
        simp only [due, hp', ← hnil.1]
        exact Nat.lt_succ_self _
      · refine ⟨.complete fun _ => 0, ⟨s.socket, r', s.posted ++ []⟩, trivial,
          by rw [ReadLoop.step, hstep, he]; rfl, hp' ▸ Option.some_ne_none _, ?_⟩
        rw [work, work, hdue]
        simp only [due, hp', hdata]
        rw [if_neg (by rw [List.length_nil]; omega)]
        omega

/-- A session without a read error consumes what has arrived of a stream of admissible
length fields: the io thread runs dry with the next read waiting. -/
theorem exists_consumed_of_announces {arr : Bytes} {s : ReadLoop} (h : s.Holds arr)
    (harr : ∀ len, Announces arr len → LengthOk len) (hp : s.receiver.pending ≠ none) :
    ∃ bs t, run ReadLoop.step s bs = some t ∧ (∀ b ∈ bs, Local b) ∧ t.Consumed := by
  by_cases hc : s.Consumed
  · exact ⟨[], s, rfl, fun _ hb => absurd hb List.not_mem_nil, hc⟩
  · obtain ⟨a, t, ha, hstep, hpt, hlt⟩ := h.exists_local hp hc
    have hok : HeadField LengthOk s a := by
      cases a with
      | complete mem => exact fun hp' hd => harr _ (h.announces hp' hd)
      | arrive piece => trivial
      | readSome k => trivial
      | fail => trivial
    have ht := h.step hok hstep
    rw [arrived_of_local ha, List.append_nil] at ht
    obtain ⟨bs, u, hrun, hbs, hu⟩ := exists_consumed_of_announces ht harr hpt
    refine ⟨a :: bs, u, run_cons_eq_some.mpr ⟨t, hstep, hrun⟩, ?_, hu⟩
    intro b hb
    rcases List.mem_cons.mp hb with rfl | hb
    · exact ha
    · exact hbs b hb
termination_by s.work

/-- A session without a read error consumes what has arrived of a stream of admissible frames. -/
theorem exists_consumed {fs : List Frame}
    (hfs : ∀ f ∈ fs, LengthOk (BitVec.ofNat 32 f.body.length)) {arr : Bytes} {s : ReadLoop}
    (h : s.Holds arr) (harr : arr <+: fs.flatMap Frame.encode)
    (hp : s.receiver.pending ≠ none) :
    ∃ bs t, run ReadLoop.step s bs = some t ∧ (∀ b ∈ bs, Local b) ∧ t.Consumed := by
  apply exists_consumed_of_announces h _ hp
  intro len hlen
  obtain ⟨f, hf, rfl⟩ := hlen.of_frames harr
  exact hfs f hf

end ReadLoop

end ResourceServer
