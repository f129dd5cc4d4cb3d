import Mathlib.Data.List.Basic

/-!
# Files of records

A code writes each value as an image that shows where it ends. A file is read record by record until the bytes left are no record.
What is read back from the images of values, from a part of them, and from images that follow a torn one.
-/

namespace Systems

variable {α β : Type*}

/-- How the decoding of bytes ends: with a record and the bytes after it, with the end of the file, or with a failure. -/
inductive Decoded (α β : Type*) where
  | record (a : α) (rest : List β)
  | stop
  | failure

/-- A code for records: an image is read back as its record whatever follows it, an image that is cut short ends the file, and what is
read as a record is the image of one. -/
structure Code (α β : Type*) where
  encode : α → List β
  decode : List β → Decoded α β
  Fits : α → Prop
  decode_encode {a : α} (h : Fits a) (rest : List β) : decode (encode a ++ rest) = .record a rest
  decode_torn {a : α} {p : List β} (h : Fits a) (hp : p <+: encode a) (hne : p ≠ encode a) : decode p = .stop
  decode_record {bs rest : List β} {a : α} (h : decode bs = .record a rest) : Fits a ∧ bs = encode a ++ rest

namespace Code

variable {c : Code α β} {as l : List α} {bs p : List β}

/-- The images of records, one after the other. -/
def images (c : Code α β) (as : List α) : List β := (as.map c.encode).flatten

/-- The file is read as these records. -/
inductive Reads (c : Code α β) : List β → List α → Prop where
  | nil {bs : List β} : c.decode bs = .stop → Reads c bs []
  | cons {bs rest : List β} {a : α} {as : List α} : c.decode bs = .record a rest → Reads c rest as → Reads c bs (a :: as)

@[simp] theorem images_nil (c : Code α β) : c.images [] = [] := rfl

@[simp] theorem images_cons (c : Code α β) (a : α) (as : List α) : c.images (a :: as) = c.encode a ++ c.images as := rfl

@[simp] theorem images_append (c : Code α β) (as as' : List α) : c.images (as ++ as') = c.images as ++ c.images as' := by
  simp [images]

namespace Reads

/-- A file is read in one way only. -/
theorem unique (h : c.Reads bs as) (h' : c.Reads bs l) : as = l := by
  induction h generalizing l with
  | nil hd =>
    cases h' with
    | nil _ => rfl
    | cons hd' _ => rw [hd] at hd'; cases hd'
  | cons hd _ ih =>
    cases h' with
    | nil hd' => rw [hd] at hd'; cases hd'
    | cons hd' h' =>
      rw [hd] at hd'
      cases hd'
      rw [ih h']

/-- Images before a file are read before what the file is read as. -/
theorem images_append (h : c.Reads bs l) (hf : ∀ a ∈ as, c.Fits a) : c.Reads (c.images as ++ bs) (as ++ l) := by
  induction as with
  | nil => exact h
  | cons a as ih =>
    rw [images_cons, List.append_assoc]
    exact .cons (c.decode_encode (hf a List.mem_cons_self) _) (ih fun a' ha' => hf a' (List.mem_cons_of_mem _ ha'))

/-- A file is the images of what it is read as, followed by bytes that are no record. -/
theorem shape (h : c.Reads bs as) : (∀ a ∈ as, c.Fits a) ∧ ∃ s, bs = c.images as ++ s ∧ c.decode s = .stop := by
  induction h with
  | nil hd => exact ⟨fun _ h => absurd h List.not_mem_nil, _, rfl, hd⟩
  | cons hd _ ih =>
    obtain ⟨hfit, rfl⟩ := c.decode_record hd
    obtain ⟨hfits, s, rfl, hs⟩ := ih
    refine ⟨fun a ha => ?_, s, (List.append_assoc _ _ _).symm, hs⟩
    rcases List.mem_cons.mp ha with rfl | ha
    · exact hfit
    · exact hfits a ha

end Reads

/-- What comes after the images of records is no part of them. -/
theorem reads_images_append_iff (hf : ∀ a ∈ as, c.Fits a) :
    c.Reads (c.images as ++ bs) (as ++ l) ↔ c.Reads bs l := by
  refine ⟨fun h => ?_, fun h => h.images_append hf⟩
  induction as with
  | nil => exact h
  | cons a as ih =>
    rw [images_cons, List.append_assoc] at h
    cases h with
    | cons hd h =>
      rw [c.decode_encode (hf a List.mem_cons_self)] at hd
      cases hd
      exact ih (fun a' ha' => hf a' (List.mem_cons_of_mem _ ha')) h

/-- The first bytes of a file of images are read as the longest list of records that they hold all the bytes of. -/
theorem reads_take (hstop : c.decode [] = .stop) (hf : ∀ a ∈ as, c.Fits a) (n : ℕ) :
    ∃ l, c.Reads ((c.images as).take n) l ∧ l <+: as ∧ (c.images l).length ≤ n ∧
      ∀ l', l' <+: as → (c.images l').length ≤ n → l' <+: l := by
  induction as generalizing n with
  | nil =>
    refine ⟨[], ?_, List.prefix_refl _, Nat.zero_le _, fun l' h _ => h⟩
    rw [images_nil, List.take_nil]
    exact .nil hstop
  | cons a as ih =>
    have hfit := hf a List.mem_cons_self
    rw [images_cons]
    by_cases hn : (c.encode a).length ≤ n
    · -- the first image is whole, and the rest is read as the induction hypothesis says
      obtain ⟨l, hr, hl, hlen, hmax⟩ := ih (fun a' ha' => hf a' (List.mem_cons_of_mem _ ha')) (n - (c.encode a).length)
      refine ⟨a :: l, ?_, List.cons_prefix_cons.mpr ⟨rfl, hl⟩, ?_, fun l' hl' hlen' => ?_⟩
      · rw [List.take_append, List.take_of_length_le hn]
        exact .cons (c.decode_encode hfit _) hr
      · rw [images_cons, List.length_append]
        omega
      · cases l' with
        | nil => exact List.nil_prefix
        | cons b l' =>
          obtain ⟨rfl, htail⟩ := List.cons_prefix_cons.mp hl'
          rw [images_cons, List.length_append] at hlen'
          exact List.cons_prefix_cons.mpr ⟨rfl, hmax l' htail (by omega)⟩
    · -- the first image is cut short
      have htake : (c.encode a ++ c.images as).take n = (c.encode a).take n := by
        rw [List.take_append_of_le_length (by omega)]
      refine ⟨[], ?_, List.nil_prefix, Nat.zero_le _, fun l' hl' hlen' => ?_⟩
      · rw [htake]
        refine .nil (c.decode_torn hfit (List.take_prefix _ _) fun heq => ?_)
        have := congrArg List.length heq
        rw [List.length_take] at this
        omega
      · cases l' with
        | nil => exact List.nil_prefix
        | cons b l' =>
          obtain ⟨rfl, _⟩ := List.cons_prefix_cons.mp hl'
          rw [images_cons, List.length_append] at hlen'
          omega

/-- Images that follow a torn one are read back where, moved to the place of the torn one, they are followed by bytes that are no
record. -/
theorem reads_torn_iff (hf : ∀ a ∈ as, c.Fits a) (hl : ∀ a ∈ l, c.Fits a) :
    c.Reads (c.images as ++ (p ++ c.images l)) (as ++ l) ↔ ∃ s, p ++ c.images l = c.images l ++ s ∧ c.decode s = .stop := by
  rw [reads_images_append_iff hf]
  constructor
  · intro h
    exact h.shape.2
  · rintro ⟨s, heq, hs⟩
    rw [heq]
    have hread := (Reads.nil hs).images_append hl
    rwa [List.append_nil] at hread

end Code

end Systems
