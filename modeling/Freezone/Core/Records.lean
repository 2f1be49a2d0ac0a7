import Mathlib

/-!
# Logs of self-locating records

Numbers are stored in a fixed number of bytes, least significant byte first. A
log is a sequence of packed records, each followed by its own start position; its
index is the sequence of these positions. A record is found at its position, and
the last eight bytes of a log are the position of its last record.
-/

namespace Freezone.Records

open List Nat

/-- The `w` lowest bytes of `n`, least significant first. -/
def leBytes : Nat → Nat → List UInt8
  | 0, _ => []
  | w + 1, n => UInt8.ofNat n :: leBytes w (n / 256)

/-- The number with the given bytes, least significant first. -/
def ofLeBytes (bytes : List UInt8) : Nat := Nat.ofDigits 256 (bytes.map UInt8.toNat)

@[simp] theorem length_leBytes (w n : Nat) : (leBytes w n).length = w := by
  induction w generalizing n with
  | zero => rfl
  | succ w ih => rw [leBytes, length_cons, ih]

/-- Reading back a written number gives it modulo the width. -/
theorem ofLeBytes_leBytes (w n : Nat) : ofLeBytes (leBytes w n) = n % 256 ^ w := by
  induction w generalizing n with
  | zero => simp [leBytes, ofLeBytes, mod_one]
  | succ w ih =>
    have hrest : ofDigits 256 ((leBytes w (n / 256)).map UInt8.toNat) = n / 256 % 256 ^ w :=
      ih (n / 256)
    have hbyte : (UInt8.ofNat n).toNat = n % 256 := by simp [UInt8.toNat_ofNat']
    rw [leBytes, ofLeBytes, map_cons, ofDigits_cons, hrest, hbyte, pow_succ,
      mul_comm (256 ^ w), mod_mul]

theorem ofLeBytes_leBytes_of_lt {w n : Nat} (h : n < 256 ^ w) : ofLeBytes (leBytes w n) = n := by
  rw [ofLeBytes_leBytes, mod_eq_of_lt h]

/-- Writing back the number of some bytes gives them. -/
theorem leBytes_ofLeBytes (bytes : List UInt8) :
    leBytes bytes.length (ofLeBytes bytes) = bytes := by
  induction bytes with
  | nil => rfl
  | cons b bytes ih =>
    have hb := b.toNat_lt
    have hlow : UInt8.ofNat (b.toNat + 256 * ofLeBytes bytes) = b :=
      UInt8.toNat_inj.mp (by rw [UInt8.toNat_ofNat']; omega)
    have hhigh : (b.toNat + 256 * ofLeBytes bytes) / 256 = ofLeBytes bytes := by omega
    rw [ofLeBytes, map_cons, ofDigits_cons, length_cons, leBytes, ← ofLeBytes, hlow, hhigh, ih]

/-- Read eight bytes off a stream. -/
def readU64 (stream : List UInt8) : Option (Nat × List UInt8) :=
  if 8 ≤ stream.length then some (ofLeBytes (stream.take 8), stream.drop 8) else none

/-- Read the last eight bytes of a file. -/
def tailU64 (file : List UInt8) : Option Nat :=
  if 8 ≤ file.length then some (ofLeBytes (file.drop (file.length - 8))) else none

theorem readU64_append {n : Nat} (h : n < 2 ^ 64) (rest : List UInt8) :
    readU64 (leBytes 8 n ++ rest) = some (n, rest) := by
  have hn : ofLeBytes (leBytes 8 n) = n := ofLeBytes_leBytes_of_lt (by simpa using h)
  have hlen := length_leBytes 8 n
  rw [readU64, if_pos (by simp), take_left' hlen, drop_left' hlen, hn]

theorem tailU64_append {n : Nat} (h : n < 2 ^ 64) (front : List UInt8) :
    tailU64 (front ++ leBytes 8 n) = some n := by
  have hn : ofLeBytes (leBytes 8 n) = n := ofLeBytes_leBytes_of_lt (by simpa using h)
  have hlen : (front ++ leBytes 8 n).length - 8 = front.length := by simp
  rw [tailU64, if_pos (by simp), hlen, drop_left, hn]

variable {R : Type} (pack : R → List UInt8)

/-- The bytes of a record that starts at `pos`. -/
def frame (pos : Nat) (r : R) : List UInt8 := pack r ++ leBytes 8 pos

/-- The bytes of consecutive records of which the first starts at `pos`. -/
def frames : Nat → List R → List UInt8
  | _, [] => []
  | pos, r :: rs => frame pack pos r ++ frames (pos + (frame pack pos r).length) rs

/-- The start positions of consecutive records. -/
def starts : Nat → List R → List Nat
  | _, [] => []
  | pos, r :: rs => pos :: starts (pos + (frame pack pos r).length) rs

/-- The index of consecutive records: their positions, eight bytes each. -/
def positions (pos : Nat) (rs : List R) : List UInt8 := (starts pack pos rs).flatMap (leBytes 8)

variable {pack} {pos : Nat} {r : R} {rs ss : List R}

theorem length_frame : (frame pack pos r).length = (pack r).length + 8 := by
  simp [frame]

@[simp] theorem length_starts : (starts pack pos rs).length = rs.length := by
  induction rs generalizing pos with
  | nil => rfl
  | cons r rs ih => simp [starts, ih]

theorem frames_append : frames pack pos (rs ++ ss) =
    frames pack pos rs ++ frames pack (pos + (frames pack pos rs).length) ss := by
  induction rs generalizing pos with
  | nil => simp [frames]
  | cons r rs ih => simp [frames, ih, add_assoc]

theorem starts_append : starts pack pos (rs ++ ss) =
    starts pack pos rs ++ starts pack (pos + (frames pack pos rs).length) ss := by
  induction rs generalizing pos with
  | nil => simp [starts, frames]
  | cons r rs ih => simp [starts, frames, ih, add_assoc]

theorem positions_append : positions pack pos (rs ++ ss) =
    positions pack pos rs ++ positions pack (pos + (frames pack pos rs).length) ss := by
  rw [positions, starts_append, flatMap_append]
  rfl

@[simp] theorem positions_singleton : positions pack pos [r] = leBytes 8 pos := by
  simp [positions, starts]

@[simp] theorem frames_singleton : frames pack pos [r] = frame pack pos r := by
  simp [frames]

@[simp] theorem length_positions : (positions pack pos rs).length = 8 * rs.length := by
  induction rs generalizing pos with
  | nil => rfl
  | cons r rs ih =>
    simp only [positions] at ih ⊢
    rw [starts, flatMap_cons, length_append, ih, length_leBytes, length_cons]
    omega

/-- Every record has eight bytes at least. -/
theorem length_le_length_frames : 8 * rs.length ≤ (frames pack pos rs).length := by
  induction rs generalizing pos with
  | nil => simp
  | cons r rs ih =>
    rw [frames, length_append, length_frame, length_cons]
    have h := @ih (pos + (frame pack pos r).length)
    rw [length_frame] at h
    omega

/-- Later records start later. -/
theorem le_of_mem_starts {q : Nat} (hq : q ∈ starts pack pos rs) : pos ≤ q := by
  induction rs generalizing pos with
  | nil => cases hq
  | cons r rs ih =>
    rcases mem_cons.mp hq with rfl | hq
    · exact le_rfl
    · exact le_trans (Nat.le_add_right _ _) (ih hq)

/-- The last eight bytes are the position of the last record. -/
theorem tailU64_frames (h : (frames pack 0 rs).length < 2 ^ 64) :
    tailU64 (frames pack 0 (rs ++ [r])) = some (frames pack 0 rs).length := by
  rw [frames_append, frames_singleton, frame, ← append_assoc, zero_add]
  exact tailU64_append h _

end Freezone.Records
