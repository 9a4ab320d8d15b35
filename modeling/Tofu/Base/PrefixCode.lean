import Mathlib.Data.List.Infix
import Mathlib.Tactic.Common

/-!
# Prefix codes

A code writes each symbol as a word such that a stream of letters starts with the word of at
most one symbol. A text is written word by word and read back unambiguously. Who can only ask
whether a whole stream is a text finds its first symbol by asking for longer and longer
stretches of it.
-/

namespace Tofu

/-- A code, with the reader of the first symbol of a stream. -/
structure PrefixCode (α β : Type*) where
  encode : α → List β
  decode : List β → Option α
  encode_ne_nil : ∀ a, encode a ≠ []
  decode_eq_some_iff : ∀ {bs a}, decode bs = some a ↔ encode a <+: bs

/-- The first symbol of the first stretch that a reader of whole texts accepts, among some
lengths; `none` when an accepted text has no first symbol, `some none` when none is accepted. -/
def firstAccepted {α β : Type*} (read : List β → Option (List α)) (bs : List β) :
    List Nat → Option (Option α)
  | [] => some none
  | i :: is =>
    match read (bs.take i) with
    | some as => as.head?.map some
    | none => firstAccepted read bs is

namespace PrefixCode

variable {α β : Type*} (C : PrefixCode α β)

/-- The words of some symbols. -/
def encodeAll (as : List α) : List β := as.flatMap C.encode

/-- Reads a whole text. -/
def decodeAll : List β → Option (List α)
  | [] => some []
  | b :: bs =>
    match C.decode (b :: bs) with
    | none => none
    | some a => (decodeAll ((b :: bs).drop (C.encode a).length)).map (a :: ·)
termination_by bs => bs.length
decreasing_by
  have := List.length_pos_of_ne_nil (C.encode_ne_nil a)
  rw [List.length_drop, List.length_cons]
  omega

/-- Nothing is encoded as nothing. -/
@[simp] theorem encodeAll_nil : C.encodeAll [] = [] := rfl

/-- Letters are encoded one after the other. -/
@[simp] theorem encodeAll_cons (a : α) (as : List α) :
    C.encodeAll (a :: as) = C.encode a ++ C.encodeAll as := rfl

private theorem decode_encodeAll_cons (a : α) (as : List α) :
    C.decode (C.encodeAll (a :: as)) = some a :=
  C.decode_eq_some_iff.mpr (List.prefix_append _ _)

variable {C} {bs : List β} {a : α} {as : List α}

/-- Reading accepts exactly the texts. -/
theorem decodeAll_eq_some_iff : C.decodeAll bs = some as ↔ bs = C.encodeAll as := by
  constructor
  · intro h
    induction as generalizing bs with
    | nil =>
      cases bs with
      | nil => rfl
      | cons b bs =>
        rw [decodeAll] at h
        split at h
        · cases h
        · simp at h
    | cons a as ih =>
      cases bs with
      | nil => simp [decodeAll] at h
      | cons b bs =>
        rw [decodeAll] at h
        split at h
        · cases h
        · next a' hdec =>
          obtain ⟨as', hrest, heq⟩ := Option.map_eq_some_iff.mp h
          obtain ⟨rfl, rfl⟩ := List.cons.inj heq
          rw [encodeAll_cons, ← ih hrest]
          exact (List.prefix_iff_eq_append.mp (C.decode_eq_some_iff.mp hdec)).symm
  · rintro rfl
    induction as with
    | nil => simp [decodeAll]
    | cons a as ih =>
      have hdec := C.decode_encodeAll_cons a as
      cases hbs : C.encodeAll (a :: as) with
      | nil => simp [C.encode_ne_nil a] at hbs
      | cons b bs =>
        rw [hbs] at hdec
        rw [decodeAll, hdec, ← hbs, encodeAll_cons]
        simp [ih]

section Reader

/-! A reader that accepts exactly the texts, tried on longer and longer stretches. -/

variable {read : List β → Option (List α)}
  (hread : ∀ {bs as}, read bs = some as ↔ bs = C.encodeAll as)

include hread

/-- An accepted stretch starts with the first symbol of the stream. -/
theorem head_of_read {i : Nat} (hi : 0 < i) (hle : i ≤ bs.length)
    (h : read (bs.take i) = some as) : ∃ a as', as = a :: as' ∧ C.decode bs = some a := by
  have hbs := hread.mp h
  cases as with
  | nil =>
    have hlen := congrArg List.length hbs
    rw [List.length_take, encodeAll_nil, List.length_nil] at hlen
    omega
  | cons a as =>
    refine ⟨a, as, rfl, C.decode_eq_some_iff.mpr ?_⟩
    have hword : C.encode a <+: bs.take i := by
      rw [hbs]
      exact List.prefix_append _ _
    exact hword.trans (List.take_prefix i bs)

/-- The stretch of the first symbol is accepted. -/
theorem read_take (h : C.decode bs = some a) :
    read (bs.take (C.encode a).length) = some [a] := by
  rw [hread, ← List.prefix_iff_eq_take.mp (C.decode_eq_some_iff.mp h), encodeAll_cons,
    encodeAll_nil, List.append_nil]

/-- Trying lengths, that of the first symbol among them, finds the first symbol. -/
theorem firstAccepted_eq {is : List Nat} (his : ∀ i ∈ is, 0 < i ∧ i ≤ bs.length)
    (hword : ∀ a, C.decode bs = some a → (C.encode a).length ∈ is) :
    firstAccepted read bs is = some (C.decode bs) := by
  induction is with
  | nil =>
    cases hdec : C.decode bs with
    | none => rfl
    | some a => cases hword a hdec
  | cons i is ih =>
    rw [firstAccepted]
    cases h : read (bs.take i) with
    | some as =>
      obtain ⟨hi, hle⟩ := his i List.mem_cons_self
      obtain ⟨a, as', rfl, hdec⟩ := head_of_read hread hi hle h
      rw [hdec]
      rfl
    | none =>
      refine ih (fun j hj ↦ his j (List.mem_cons_of_mem _ hj)) fun a hdec ↦ ?_
      -- the length of the first symbol is not the one refused
      rcases List.mem_cons.mp (hword a hdec) with heq | hmem
      · rw [← heq, read_take hread hdec] at h
        cases h
      · exact hmem

/-- It is enough to try the lengths up to that of the longest word. -/
theorem firstAccepted_range {longest : Nat} (hlongest : ∀ a, (C.encode a).length ≤ longest)
    (bs : List β) :
    firstAccepted read bs (List.range' 1 (min longest bs.length)) = some (C.decode bs) := by
  apply firstAccepted_eq hread
  · intro i hi
    rw [List.mem_range'_1] at hi
    omega
  · intro a hdec
    have hpos := List.length_pos_of_ne_nil (C.encode_ne_nil a)
    have hle := (C.decode_eq_some_iff.mp hdec).length_le
    have := hlongest a
    rw [List.mem_range'_1]
    omega

end Reader

end PrefixCode

end Tofu
