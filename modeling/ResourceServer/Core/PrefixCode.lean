import Mathlib.Data.List.Induction
import Mathlib.Tactic.Common

/-!
# Concatenations of prefix-free codewords

A stream is the concatenation of the codewords of a list of messages. Under a
prefix-free code a stream, and every cut of it, determines the messages whose
codewords lie wholly inside it.
-/

namespace PrefixCode

variable {α β : Type*} {enc : α → List β}

/-- No codeword is an initial segment of the codeword of another message. -/
def PrefixFree (enc : α → List β) : Prop := ∀ a b, enc a <+: enc b → a = b

/-- The messages whose codewords lie wholly inside the first `n` symbols of the stream. -/
def wholeIn (enc : α → List β) : Nat → List α → List α
  | _, [] => []
  | n, a :: as => if (enc a).length ≤ n then a :: wholeIn enc (n - (enc a).length) as else []

/-- A tail that no codeword begins. -/
def Incomplete (enc : α → List β) (rest : List β) : Prop := ∀ a, ¬ enc a <+: rest

/-- A code whose fixed-length header tells the length of the payload behind it is prefix-free. -/
theorem prefixFree_of_header (head body : α → List β) (henc : ∀ a, enc a = head a ++ body a)
    (hlen : ∀ a b, (head a).length = (head b).length)
    (hbody : ∀ a b, head a = head b → (body a).length = (body b).length)
    (hinj : ∀ a b, head a = head b → body a = body b → a = b) : PrefixFree enc := by
  intro a b hab
  rw [henc, henc] at hab
  obtain ⟨rest, hrest⟩ := hab
  rw [List.append_assoc] at hrest
  obtain ⟨hh, ht⟩ := List.append_inj hrest (hlen a b)
  exact hinj a b hh (List.IsPrefix.eq_of_length ⟨rest, ht⟩ (hbody a b hh))

/-- Codewords that begin the same stream belong to the same message. -/
theorem PrefixFree.eq_of_common (hf : PrefixFree enc) {a b : α} {l : List β} (ha : enc a <+: l)
    (hb : enc b <+: l) : a = b := by
  rcases List.prefix_or_prefix_of_prefix ha hb with h | h
  · exact hf a b h
  · exact (hf b a h).symm

/-- A cut of a stream that begins with the codewords of `as` belongs to a stream
whose first messages are `as`. -/
theorem PrefixFree.split (hf : PrefixFree enc) (hne : ∀ a, enc a ≠ []) {as bs : List α}
    {rest : List β} (h : as.flatMap enc ++ rest <+: bs.flatMap enc) :
    ∃ cs, bs = as ++ cs ∧ rest <+: cs.flatMap enc := by
  induction as generalizing bs with
  | nil => exact ⟨bs, rfl, h⟩
  | cons a as ih =>
    rw [List.flatMap_cons, List.append_assoc] at h
    have ha : enc a <+: bs.flatMap enc := (List.prefix_append _ _).trans h
    cases bs with
    | nil => exact absurd (List.eq_nil_of_prefix_nil ha) (hne a)
    | cons b bs =>
      obtain rfl : a = b := hf.eq_of_common ha (List.prefix_append _ _)
      rw [List.flatMap_cons, List.prefix_append_right_inj] at h
      obtain ⟨cs, rfl, hr⟩ := ih h
      exact ⟨cs, rfl, hr⟩

/-- No message lies wholly inside an incomplete tail. -/
theorem wholeIn_of_incomplete {cs : List α} {rest : List β} (h : rest <+: cs.flatMap enc)
    (hr : Incomplete enc rest) : wholeIn enc rest.length cs = [] := by
  cases cs with
  | nil => rfl
  | cons c cs =>
    have hlt : ¬ (enc c).length ≤ rest.length := by
      intro hle
      exact hr c (List.prefix_of_prefix_length_le (List.prefix_append _ _) h hle)
    rw [wholeIn, if_neg hlt]

/-- The messages wholly inside a cut behind the codewords of `as` are `as` and
those wholly inside the remainder. -/
theorem wholeIn_append (enc : α → List β) (as cs : List α) (n : Nat) :
    wholeIn enc ((as.flatMap enc).length + n) (as ++ cs) = as ++ wholeIn enc n cs := by
  induction as with
  | nil => rw [List.flatMap_nil, List.length_nil, Nat.zero_add, List.nil_append, List.nil_append]
  | cons a as ih =>
    rw [List.flatMap_cons, List.length_append, List.cons_append, wholeIn, if_pos (by omega),
      Nat.add_assoc, Nat.add_sub_cancel_left, ih, List.cons_append]

/-- Codes that agree on the messages of a stream cut it alike. -/
theorem wholeIn_congr {enc' : α → List β} {as : List α} (h : ∀ a ∈ as, enc a = enc' a) (n : Nat) :
    wholeIn enc n as = wholeIn enc' n as := by
  induction as generalizing n with
  | nil => rfl
  | cons a as ih =>
    rw [wholeIn, wholeIn, h a List.mem_cons_self,
      ih fun b hb => h b (List.mem_cons_of_mem a hb)]

/-- A cut stream whose complete codewords are those of `as` holds exactly the
messages `as` of the uncut stream. -/
theorem PrefixFree.wholeIn_eq (hf : PrefixFree enc) (hne : ∀ a, enc a ≠ []) {as bs : List α}
    {rest : List β} (h : as.flatMap enc ++ rest <+: bs.flatMap enc) (hr : Incomplete enc rest) :
    wholeIn enc (as.flatMap enc ++ rest).length bs = as := by
  obtain ⟨cs, rfl, hcs⟩ := hf.split hne h
  rw [List.length_append, wholeIn_append, wholeIn_of_incomplete hcs hr, List.append_nil]

/-- Streams under a prefix-free code order their message lists. -/
theorem PrefixFree.of_flatMap (hf : PrefixFree enc) (hne : ∀ a, enc a ≠ []) {as bs : List α}
    (h : as.flatMap enc <+: bs.flatMap enc) : as <+: bs := by
  rw [← List.append_nil (as.flatMap enc)] at h
  obtain ⟨cs, rfl, _⟩ := hf.split hne h
  exact List.prefix_append _ _

/-- Behind the codewords of a stream an incomplete tail begins no further one. -/
theorem PrefixFree.of_flatMap_append (hf : PrefixFree enc) {as bs : List α} {rest : List β}
    (hr : Incomplete enc rest) (h : as.flatMap enc <+: bs.flatMap enc ++ rest) : as <+: bs := by
  induction as generalizing bs with
  | nil => exact List.nil_prefix
  | cons a as ih =>
    rw [List.flatMap_cons] at h
    have ha : enc a <+: bs.flatMap enc ++ rest := (List.prefix_append _ _).trans h
    cases bs with
    | nil => exact absurd ha (hr a)
    | cons b bs =>
      rw [List.flatMap_cons, List.append_assoc] at h ha
      obtain rfl : a = b := hf.eq_of_common ha (List.prefix_append _ _)
      rw [List.prefix_append_right_inj] at h
      exact List.cons_prefix_cons.mpr ⟨rfl, ih h⟩

/-- Equal streams carry equal message lists. -/
theorem PrefixFree.flatMap_injective (hf : PrefixFree enc) (hne : ∀ a, enc a ≠ [])
    {as bs : List α} (h : as.flatMap enc = bs.flatMap enc) : as = bs :=
  (hf.of_flatMap hne (h ▸ List.prefix_rfl)).eq_of_length_le
    (hf.of_flatMap hne (h ▸ List.prefix_rfl)).length_le

end PrefixCode
