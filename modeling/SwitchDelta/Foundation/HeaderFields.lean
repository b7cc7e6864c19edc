import Mathlib

/-!
# Fields of packet headers

A header is a sequence of fields with fixed widths in bits, most significant bit first. `extract`
takes the values of the fields from the front of a packet, and `emit` puts them back. The two are
inverse to each other, whatever the widths (`emit_of_extract`, `extract_emit`).

`bitsOf` is a packet as its bytes give it, and `beNat` the number that some of its bytes stand for.
-/

set_option autoImplicit false
set_option relaxedAutoImplicit false

namespace SwitchDelta.Foundation

/-! ### Numbers as bits -/

/-- The number that bits stand for, most significant bit first. -/
def ofBits : List Bool → ℕ
  | [] => 0
  | b :: bits => b.toNat * 2 ^ bits.length + ofBits bits

/-- The lowest bits of a number, most significant bit first. -/
def toBits : ℕ → ℕ → List Bool
  | 0, _ => []
  | width + 1, n => n.testBit width :: toBits width n

@[simp] theorem ofBits_nil : ofBits [] = 0 := rfl

@[simp] theorem length_toBits (width n : ℕ) : (toBits width n).length = width := by
  induction width with
  | zero => rfl
  | succ width ih => rw [toBits, List.length_cons, ih]

theorem ofBits_lt (bits : List Bool) : ofBits bits < 2 ^ bits.length := by
  induction bits with
  | nil => simp
  | cons b bits ih =>
    have hb : b.toNat * 2 ^ bits.length ≤ 2 ^ bits.length := by
      cases b <;> simp
    rw [ofBits, List.length_cons, pow_succ]
    omega

theorem ofBits_append (bits bits' : List Bool) :
    ofBits (bits ++ bits') = ofBits bits * 2 ^ bits'.length + ofBits bits' := by
  induction bits with
  | nil => simp
  | cons b bits ih =>
    rw [List.cons_append, ofBits, ih, ofBits, List.length_append, pow_add]
    ring

theorem ofBits_toBits (width n : ℕ) : ofBits (toBits width n) = n % 2 ^ width := by
  induction width with
  | zero => simp [toBits, Nat.mod_one]
  | succ width ih =>
    rw [toBits, ofBits, ih, length_toBits, Nat.mod_pow_succ, Nat.toNat_testBit]
    ring

theorem toBits_mod (width n m : ℕ) (h : width ≤ m) : toBits width (n % 2 ^ m) = toBits width n := by
  induction width with
  | zero => rfl
  | succ width ih =>
    rw [toBits, toBits, ih (by omega), Nat.testBit_mod_two_pow]
    simp [show width < m by omega]

theorem toBits_add (width width' n : ℕ) :
    toBits (width + width') n = toBits width (n / 2 ^ width') ++ toBits width' n := by
  induction width with
  | zero => rw [Nat.zero_add]; rfl
  | succ width ih =>
    rw [Nat.add_right_comm, toBits, ih, toBits, Nat.testBit_div_two_pow, List.cons_append]

theorem toBits_ofBits (bits : List Bool) : toBits bits.length (ofBits bits) = bits := by
  induction bits with
  | nil => rfl
  | cons b bits ih =>
    have hlt := ofBits_lt bits
    have hhead : (b.toNat * 2 ^ bits.length + ofBits bits).testBit bits.length = b := by
      rw [Nat.testBit_eq_decide_div_mod_eq, Nat.add_comm, Nat.add_mul_div_right _ _ (by positivity),
        Nat.div_eq_of_lt hlt]
      cases b <;> simp
    have htail : toBits bits.length (b.toNat * 2 ^ bits.length + ofBits bits) = bits := by
      rw [← toBits_mod _ _ _ le_rfl, Nat.mul_add_mod_self_right, Nat.mod_eq_of_lt hlt, ih]
    rw [List.length_cons, toBits, ofBits, hhead, htail]

/-! ### Headers -/

/-- Take the fields of a header from the front of a packet. A packet that is too short has no such
header. -/
def extract : List ℕ → List Bool → Option (List ℕ × List Bool)
  | [], bits => some ([], bits)
  | width :: widths, bits =>
    if bits.length < width then none
    else (extract widths (bits.drop width)).map fun r ↦ (ofBits (bits.take width) :: r.1, r.2)

/-- The bits of a header. -/
def emit : List ℕ → List ℕ → List Bool
  | width :: widths, value :: values => toBits width value ++ emit widths values
  | _, _ => []

/-- There is a value for each field, and it fits. -/
def Fits (widths values : List ℕ) : Prop :=
  List.Forall₂ (fun width value ↦ value < 2 ^ width) widths values

/-- What was taken from a packet can be put back. -/
theorem emit_of_extract {widths values : List ℕ} {bits rest : List Bool}
    (h : extract widths bits = some (values, rest)) :
    Fits widths values ∧ emit widths values ++ rest = bits := by
  induction widths generalizing bits values with
  | nil =>
    obtain ⟨rfl, rfl⟩ := Prod.mk.inj (Option.some.inj h)
    exact ⟨List.Forall₂.nil, rfl⟩
  | cons width widths ih =>
    rw [extract] at h
    split_ifs at h with hshort
    obtain ⟨⟨values', rest'⟩, hrest, heq⟩ := Option.map_eq_some_iff.mp h
    obtain ⟨rfl, rfl⟩ := Prod.mk.inj heq
    obtain ⟨hfits, hemit⟩ := ih hrest
    have hlength : (bits.take width).length = width := List.length_take_of_le (by omega)
    have hlt := ofBits_lt (bits.take width)
    have hfield := toBits_ofBits (bits.take width)
    rw [hlength] at hlt hfield
    refine ⟨List.Forall₂.cons hlt hfits, ?_⟩
    rw [emit, List.append_assoc, hemit, hfield, List.take_append_drop]

/-- What was put at the front of a packet can be taken from it. -/
theorem extract_emit {widths values : List ℕ} (h : Fits widths values) (rest : List Bool) :
    extract widths (emit widths values ++ rest) = some (values, rest) := by
  induction h with
  | nil => rfl
  | @cons width value widths values hvalue _ ih =>
    have hlength : (toBits width value).length = width := length_toBits _ _
    have hlong : ¬ (toBits width value ++ (emit widths values ++ rest)).length < width := by
      rw [List.length_append, hlength]
      omega
    rw [emit, List.append_assoc, extract, if_neg hlong, List.drop_left' hlength, ih, Option.map_some,
      List.take_left' hlength, ofBits_toBits, Nat.mod_eq_of_lt hvalue]

/-! ### Bytes -/

/-- The bits of a byte. -/
def byteBits (b : UInt8) : List Bool := toBits 8 b.toNat

/-- The bits of a packet. -/
def bitsOf (bytes : List UInt8) : List Bool := bytes.flatMap byteBits

/-- The number that bytes stand for, most significant byte first. -/
def beNat (bytes : List UInt8) : ℕ := ofBits (bitsOf bytes)

/-- The bytes of a number, least significant byte first, as a host keeps it. -/
def leBytes : ℕ → ℕ → List UInt8
  | 0, _ => []
  | width + 1, n => UInt8.ofNat n :: leBytes width (n / 256)

@[simp] theorem length_leBytes (width n : ℕ) : (leBytes width n).length = width := by
  induction width generalizing n with
  | zero => rfl
  | succ width ih => rw [leBytes, List.length_cons, ih]

@[simp] theorem length_bitsOf (bytes : List UInt8) : (bitsOf bytes).length = 8 * bytes.length := by
  induction bytes with
  | nil => rfl
  | cons b bytes ih =>
    rw [bitsOf, List.flatMap_cons, List.length_append, ← bitsOf, ih, byteBits, length_toBits,
      List.length_cons]
    ring

theorem bitsOf_append (bytes bytes' : List UInt8) :
    bitsOf (bytes ++ bytes') = bitsOf bytes ++ bitsOf bytes' :=
  List.flatMap_append

@[simp] theorem beNat_nil : beNat [] = 0 := rfl

@[simp] theorem beNat_cons (b : UInt8) (bytes : List UInt8) :
    beNat (b :: bytes) = b.toNat * 256 ^ bytes.length + beNat bytes := by
  have hb : b.toNat % 2 ^ 8 = b.toNat := Nat.mod_eq_of_lt b.toNat_lt
  rw [beNat, bitsOf, List.flatMap_cons, ofBits_append, ← bitsOf, length_bitsOf, byteBits,
    ofBits_toBits, hb, pow_mul, ← beNat]
  norm_num

/-- Bytes are the bits of the number that they stand for. -/
theorem toBits_beNat {width : ℕ} {bytes : List UInt8} (h : width = 8 * bytes.length) :
    toBits width (beNat bytes) = bitsOf bytes := by
  rw [h, ← length_bitsOf]
  exact toBits_ofBits _

theorem beNat_lt {width : ℕ} {bytes : List UInt8} (h : width = 8 * bytes.length) :
    beNat bytes < 2 ^ width := by
  rw [h, ← length_bitsOf]
  exact ofBits_lt _

/-- The bytes of a number, most significant byte first. -/
def beBytes : ℕ → ℕ → List UInt8
  | 0, _ => []
  | width + 1, n => UInt8.ofNat (n / 256 ^ width) :: beBytes width n

@[simp] theorem length_beBytes (width n : ℕ) : (beBytes width n).length = width := by
  induction width with
  | zero => rfl
  | succ width ih => rw [beBytes, List.length_cons, ih]

theorem bitsOf_beBytes (width n : ℕ) : bitsOf (beBytes width n) = toBits (8 * width) n := by
  induction width with
  | zero => rfl
  | succ width ih =>
    have hbyte : byteBits (UInt8.ofNat (n / 256 ^ width)) = toBits 8 (n / 2 ^ (8 * width)) := by
      rw [byteBits, UInt8.toNat_ofNat', toBits_mod 8 _ 8 le_rfl, pow_mul]
      norm_num
    rw [beBytes, bitsOf, List.flatMap_cons, ← bitsOf, ih, hbyte, Nat.mul_succ, Nat.add_comm,
      toBits_add]

theorem beNat_beBytes (width n : ℕ) : beNat (beBytes width n) = n % 2 ^ (8 * width) := by
  rw [beNat, bitsOf_beBytes, ofBits_toBits]

theorem leBytes_add (width width' n : ℕ) :
    leBytes (width + width') n = leBytes width n ++ leBytes width' (n / 256 ^ width) := by
  induction width generalizing n with
  | zero => simp [leBytes]
  | succ width ih =>
    rw [Nat.add_right_comm, leBytes, ih, leBytes, Nat.div_div_eq_div_mul, ← pow_succ',
      List.cons_append]

/-- Each field of a header is a number of whole bytes. -/
def InBytes (widths : List ℕ) (chunks : List (List UInt8)) : Prop :=
  List.Forall₂ (fun width chunk ↦ width = 8 * chunk.length) widths chunks

theorem InBytes.fits {widths : List ℕ} {chunks : List (List UInt8)} (h : InBytes widths chunks) :
    Fits widths (chunks.map beNat) := by
  induction h with
  | nil => exact List.Forall₂.nil
  | cons hwidth _ ih => exact List.Forall₂.cons (beNat_lt hwidth) ih

/-- A header whose fields are whole bytes is its bytes. -/
theorem InBytes.emit_eq {widths : List ℕ} {chunks : List (List UInt8)} (h : InBytes widths chunks) :
    emit widths (chunks.map beNat) = bitsOf chunks.flatten := by
  induction h with
  | nil => rfl
  | cons hwidth _ ih =>
    rw [List.map_cons, emit, ih, toBits_beNat hwidth, List.flatten_cons, bitsOf_append]

/-! ### Headers that agree in most fields -/

/-- The bits of the fields that may differ. -/
def mask : List ℕ → List Bool → List Bool
  | width :: widths, free :: frees => List.replicate width free ++ mask widths frees
  | _, _ => []

/-- Two packets of one length agree in each bit that is not free. -/
def AgreeOff (free bits bits' : List Bool) : Prop :=
  bits'.length = bits.length ∧ ∀ i : ℕ, free[i]? ≠ some true → bits'[i]? = bits[i]?

theorem AgreeOff.refl (free bits : List Bool) : AgreeOff free bits bits := ⟨rfl, fun _ _ ↦ rfl⟩

theorem AgreeOff.append {free free' bits bits' rest rest' : List Bool}
    (hlength : free.length = bits.length) (h : AgreeOff free bits bits')
    (hrest : AgreeOff free' rest rest') : AgreeOff (free ++ free') (bits ++ rest) (bits' ++ rest') := by
  refine ⟨by simp [h.1, hrest.1], fun i hi ↦ ?_⟩
  rcases lt_or_ge i bits.length with hlt | hge
  · rw [List.getElem?_append_left (hlength ▸ hlt)] at hi
    rw [List.getElem?_append_left (h.1 ▸ hlt), List.getElem?_append_left hlt]
    exact h.2 i hi
  · rw [List.getElem?_append_right (hlength ▸ hge), hlength] at hi
    rw [List.getElem?_append_right (h.1 ▸ hge), List.getElem?_append_right hge, h.1]
    exact hrest.2 _ hi

theorem agreeOff_replicate {free : Bool} {width : ℕ} {bits bits' : List Bool}
    (hlength : bits.length = width) (hlength' : bits'.length = width)
    (h : free = false → bits' = bits) : AgreeOff (List.replicate width free) bits bits' := by
  cases free with
  | false => rw [h rfl]; exact AgreeOff.refl _ _
  | true =>
    refine ⟨hlength'.trans hlength.symm, fun i hi ↦ ?_⟩
    rcases lt_or_ge i width with hlt | hge
    · simp [hlt] at hi
    · rw [List.getElem?_eq_none (by omega), List.getElem?_eq_none (by omega)]

/-- Headers whose fields agree unless they are free. -/
def FieldsAgree (frees : List Bool) (values values' : List ℕ) : Prop :=
  values.length = frees.length ∧ values'.length = frees.length ∧
    ∀ i : ℕ, frees[i]? = some false → values'[i]? = values[i]?

theorem FieldsAgree.trans {frees : List Bool} {values values' values'' : List ℕ}
    (h : FieldsAgree frees values values') (h' : FieldsAgree frees values' values'') :
    FieldsAgree frees values values'' :=
  ⟨h.1, h'.2.1, fun i hi ↦ (h'.2.2 i hi).trans (h.2.2 i hi)⟩

theorem length_mask {widths : List ℕ} {frees : List Bool} (values : List ℕ)
    (hwidths : widths.length = frees.length) (hvalues : values.length = frees.length) :
    (mask widths frees).length = (emit widths values).length := by
  induction widths generalizing frees values with
  | nil =>
    obtain rfl := List.length_eq_zero_iff.mp hwidths.symm
    rfl
  | cons width widths ih =>
    match frees, values, hwidths, hvalues with
    | free :: frees, value :: values, hwidths, hvalues =>
      simp only [mask, emit, List.length_append, List.length_replicate, length_toBits]
      rw [ih values (Nat.succ.inj hwidths) (Nat.succ.inj hvalues)]

/-- The bits of headers whose fields agree agree. -/
theorem FieldsAgree.agreeOff {widths : List ℕ} {frees : List Bool} {values values' : List ℕ}
    (hwidths : widths.length = frees.length) (h : FieldsAgree frees values values') :
    AgreeOff (mask widths frees) (emit widths values) (emit widths values') := by
  induction widths generalizing frees values values' with
  | nil => exact AgreeOff.refl _ _
  | cons width widths ih =>
    obtain ⟨hlength, hlength', hagree⟩ := h
    match frees, values, values', hwidths, hlength, hlength', hagree with
    | free :: frees, value :: values, value' :: values', hwidths, hlength, hlength', hagree =>
      have hhead : free = false → toBits width value' = toBits width value := by
        rintro rfl
        rw [Option.some.inj (hagree 0 rfl)]
      have htail : FieldsAgree frees values values' :=
        ⟨Nat.succ.inj hlength, Nat.succ.inj hlength', fun i hi ↦ hagree (i + 1) hi⟩
      exact (agreeOff_replicate (length_toBits _ _) (length_toBits _ _) hhead).append (by simp)
        (ih (Nat.succ.inj hwidths) htail)

end SwitchDelta.Foundation
