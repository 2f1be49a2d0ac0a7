import Freezone.Core.Records
import Freezone.Core.Checked
import Freezone.Protocol.AssetSymbol

/-!
# The bytes of a symbol

A token is packed as its number, in four bytes. The three symbols that were there before the
tokens keep the eight bytes they always had, the precision and the letters of the name, which
the first four tell from the number of a token.
-/

namespace Freezone.Protocol.AssetSymbol

open Records List

/-- `freezone_SYMBOL_SER`. -/
def freezoneSer : Nat := 0x4D4545545303

/-- `SBD_SYMBOL_SER`. -/
def sbdSer : Nat := 0x44425303

/-- `VESTS_SYMBOL_SER`. -/
def vestsSer : Nat := 0x535453455606

def validate (s : AssetSymbol) : Except String Unit :=
  match s.space with
  | .legacySpace => .ok ()
  | .sstNaiSpace =>
    ensure (1 ≤ s.assetNum >>> 5 ∧ s.assetNum >>> 5 ≤ sstMaxNai ∧ s.assetNum &&& 0x10 = 0x10 ∧
      s.assetNum &&& 0xF ≤ 12) "Cannot determine space for asset ${n}"

def pack (s : AssetSymbol) : List UInt8 :=
  match s.space with
  | .legacySpace =>
    leBytes 8 (if s = freezone then freezoneSer else if s = sbd then sbdSer else vestsSer)
  | .sstNaiSpace => leBytes 4 s.assetNum

/-- `datastream::read`. -/
def read (n : Nat) (stream : List UInt8) : Except String (List UInt8 × List UInt8) :=
  if n ≤ stream.length then .ok (stream.take n, stream.drop n)
  else .error "${method} datastream of length ${len} over by ${over}"

/-- A legacy symbol of which four bytes have been read. -/
def readLegacy (ser : Nat) (s : AssetSymbol) (low stream : List UInt8) :
    Except String (AssetSymbol × List UInt8) := do
  let (high, rest) ← read 4 stream
  ensure (ofLeBytes (low ++ high) = ser) "invalid asset bits"
  .ok (s, rest)

/-- The switch over the first four bytes. -/
def readSymbol (low stream : List UInt8) : Except String (AssetSymbol × List UInt8) :=
  if ofLeBytes low = freezoneSer % 2 ^ 32 then readLegacy freezoneSer freezone low stream
  else if ofLeBytes low = sbdSer % 2 ^ 32 then readLegacy sbdSer sbd low stream
  else if ofLeBytes low = vestsSer % 2 ^ 32 then readLegacy vestsSer vests low stream
  else .ok (⟨ofLeBytes low⟩, stream)

/-- `unpack`, with the bytes that it has not read. -/
def unpack (stream : List UInt8) : Except String (AssetSymbol × List UInt8) := do
  let (low, stream) ← read 4 stream
  let (s, rest) ← readSymbol low stream
  s.validate
  .ok (s, rest)

variable {s : AssetSymbol} {ser n : Nat} {low bytes rest rest' : List UInt8}

theorem read_append (h : bytes.length = n) : read n (bytes ++ rest) = .ok (bytes, rest) := by
  rw [read, if_pos (by simp [h]), take_left' h, drop_left' h]

theorem read_eq_ok (h : read n bytes = .ok (low, rest)) : bytes = low ++ rest ∧ low.length = n := by
  unfold read at h
  split at h
  · cases h
    exact ⟨(take_append_drop n bytes).symm, by simpa⟩
  · cases h

/-- A legacy symbol is read from its eight bytes. -/
theorem readLegacy_eq_ok {r : AssetSymbol × List UInt8} (hlow : low.length = 4)
    (h : readLegacy ser s low rest = .ok r) : r.1 = s ∧ low ++ rest = leBytes 8 ser ++ r.2 := by
  simp only [readLegacy, returns] at h
  obtain ⟨⟨high, rest'⟩, hread, -, hser, rfl⟩ := h
  obtain ⟨rfl, hhigh⟩ := read_eq_ok hread
  have hback := leBytes_ofLeBytes (low ++ high)
  rw [hser, length_append, hlow, hhigh] at hback
  exact ⟨rfl, by rw [← append_assoc, hback]⟩

theorem unpack_leBytes (ser : Nat) (hser : ser < 2 ^ 64) (hs : s.validate = .ok ())
    (h : ∀ stream, readSymbol (leBytes 4 ser) stream = readLegacy ser s (leBytes 4 ser) stream) :
    unpack (leBytes 8 ser ++ rest) = .ok (s, rest) := by
  have hsplit : leBytes 8 ser = leBytes 4 ser ++ leBytes 4 (ser / 256 / 256 / 256 / 256) := rfl
  have hback := ofLeBytes_leBytes_of_lt (w := 8) (n := ser) (by simpa using hser)
  simp only [unpack, returns]
  rw [hsplit, append_assoc]
  refine ⟨_, read_append rfl, (s, rest), ?_, (), hs, rfl⟩
  simp only [h, readLegacy, returns]
  exact ⟨_, read_append rfl, (), by rw [← hsplit, hback], rfl⟩

/-- The legacy symbols. -/
theorem space_eq : s.space = .legacySpace ↔ s = freezone ∨ s = sbd ∨ s = vests := by
  unfold space
  split <;> simp [*]

/-- A valid symbol is read back as it was written. -/
theorem unpack_pack (h : s.validate = .ok ()) : unpack (s.pack ++ rest) = .ok (s, rest) := by
  cases hs : s.space with
  | legacySpace =>
    obtain rfl | rfl | rfl := space_eq.mp hs
    · exact unpack_leBytes freezoneSer (by decide) h fun _ => if_pos (by decide)
    · refine unpack_leBytes sbdSer (by decide) h fun _ => ?_
      rw [readSymbol, if_neg (by decide), if_pos (by decide)]
    · refine unpack_leBytes vestsSer (by decide) h fun _ => ?_
      rw [readSymbol, if_neg (by decide), if_neg (by decide), if_pos (by decide)]
  | sstNaiSpace =>
    simp only [unpack, pack, hs, returns]
    refine ⟨(leBytes 4 s.assetNum, rest), read_append rfl, (s, rest), ?_, (), h, rfl⟩
    simp only [validate, hs, returns, sstMaxNai, Nat.shiftRight_eq_div_pow] at h
    -- the control bit of a token keeps its number from being read as a legacy symbol
    rw [readSymbol, ofLeBytes_leBytes_of_lt (by omega), if_neg, if_neg, if_neg] <;>
    · intro heq
      rw [heq] at h
      exact absurd h.2.2.1 (by decide)

/-- Reading the bytes of a valid symbol gives it back; reading other bytes and writing the symbol
gives them back unless they are the number that a legacy symbol has in memory. -/
theorem unpack_canonical_iff (h : unpack bytes = .ok (s, rest)) :
    ((∀ t rest', t.validate = .ok () → unpack (t.pack ++ rest') = .ok (t, rest')) ∧
      s.pack ++ rest = bytes) ↔ (⟨ofLeBytes (bytes.take 4)⟩ :
          AssetSymbol).space ≠ .legacySpace := by
  rw [and_iff_right fun t rest' ht => unpack_pack ht]
  simp only [unpack, returns] at h
  obtain ⟨⟨low, stream⟩, hread, ⟨s', rest'⟩, hcase, -, -, heq⟩ := h
  cases heq
  obtain ⟨rfl, hlow⟩ := read_eq_ok hread
  rw [take_left' hlow]
  unfold readSymbol at hcase
  split_ifs at hcase with h1 h2 h3
  · obtain ⟨rfl, hbytes⟩ := readLegacy_eq_ok hlow hcase
    rw [h1, hbytes]
    exact iff_of_true rfl (by decide)
  · obtain ⟨rfl, hbytes⟩ := readLegacy_eq_ok hlow hcase
    rw [h2, hbytes]
    exact iff_of_true rfl (by decide)
  · obtain ⟨rfl, hbytes⟩ := readLegacy_eq_ok hlow hcase
    rw [h3, hbytes]
    exact iff_of_true rfl (by decide)
  · cases hcase
    cases hs : (⟨ofLeBytes low⟩ : AssetSymbol).space with
    | legacySpace =>
      refine iff_of_false (fun h => ?_) (by simp)
      have hlength := congrArg length h
      simp [pack, hs, hlow] at hlength
    | sstNaiSpace =>
      have hback := leBytes_ofLeBytes low
      rw [hlow] at hback
      exact iff_of_true (by simp [pack, hs, hback]) (by simp)

theorem unpack_canonical_token : (⟨48⟩ : AssetSymbol).pack ++ [] = [48, 0, 0, 0] := by
  have h : unpack [48, 0, 0, 0] = .ok (⟨48⟩, []) := rfl
  exact ((unpack_canonical_iff h).mpr (by decide)).2

/-- The number of a legacy symbol is read as that symbol, which has other bytes. -/
theorem unpack_number :
    unpack (leBytes 4 sbd.assetNum) = .ok (sbd, []) ∧ sbd.pack ≠ leBytes 4 sbd.assetNum :=
  ⟨rfl, by decide⟩

end Freezone.Protocol.AssetSymbol
