import Freezone.Chain.BlockLog.Model

/-!
# The index after opening a block log

A log that holds the blocks `1..n` and their index serves every block by number
and accepts block `n + 1`. Opening rebuilds the index from the block file unless
the last positions of the two files agree; the rebuilt index is exact when the
log has at least two blocks.
-/

namespace Freezone.Chain.BlockLog

open Protocol Records List

variable {H P : Type} {codec : BlockCodec H P} {blocks : List (SignedBlock H P)}
variable {log : BlockLog H P} {b : SignedBlock H P}

/-- The blocks are numbered from 1. -/
def Numbered (blocks : List (SignedBlock H P)) : Prop :=
  ∀ k b, blocks[k]? = some b → b.blockNum = k + 1

/-- The block file holding `blocks`. -/
def blockBytes (codec : BlockCodec H P) (blocks : List (SignedBlock H P)) : List UInt8 :=
  frames codec.pack 0 blocks

/-- The exact index of `blocks`: the start position of each, eight bytes each. -/
def indexBytes (codec : BlockCodec H P) (blocks : List (SignedBlock H P)) : List UInt8 :=
  positions codec.pack 0 blocks

/-- The files and the head hold exactly the blocks `1..n`. -/
structure Holds (codec : BlockCodec H P) (log : BlockLog H P) (blocks : List (SignedBlock H P)) :
    Prop where
  numbered : Numbered blocks
  head : log.head = blocks.getLast?
  blockFile : log.blockFile = blockBytes codec blocks
  indexFile : log.indexFile = indexBytes codec blocks
  /-- File offsets are 64-bit numbers. -/
  size : (blockBytes codec blocks).length < 2 ^ 64

/-- The positions inside a file are below its size. -/
theorem length_blockBytes_lt {before after : List (SignedBlock H P)} {n : Nat}
    (h : (blockBytes codec (before ++ after)).length < n) :
    (blockBytes codec before).length < n := by
  rw [blockBytes, frames_append, length_append] at h
  exact Nat.lt_of_le_of_lt (Nat.le_add_right _ _) h

/-- Reading at the start position of a block returns the block. -/
theorem readBlockHelper_eq (before after : List (SignedBlock H P))
    (hfile : log.blockFile = blockBytes codec (before ++ b :: after)) :
    ∃ next, log.readBlockHelper codec (blockBytes codec before).length = .ok (b, next) := by
  unfold readBlockHelper
  rw [hfile, blockBytes, blockBytes, frames_append, drop_left, frames, frame, append_assoc,
    codec.unpack_pack, zero_add]
  exact ⟨_, rfl⟩

/-- The last block of a numbered log has the number of blocks as its number. -/
theorem Numbered.getLast? (h : Numbered blocks) (hb : blocks.getLast? = some b) :
    b.blockNum = blocks.length := by
  have hlen : blocks.length ≠ 0 := by
    intro h0
    rw [length_eq_zero_iff.mp h0] at hb
    cases hb
  have hk := h (blocks.length - 1) b (by rw [← hb, getLast?_eq_getElem?])
  omega

/-- Every block of the log is read back by its number. -/
theorem Holds.readBlockByNum (h : Holds codec log blocks) {k : Nat} (hk : blocks[k]? = some b) :
    log.readBlockByNum codec (k + 1) = .ok (some b) := by
  obtain ⟨hlt, hget⟩ := List.getElem?_eq_some_iff.mp hk
  obtain ⟨before, after, hsplit, hlen⟩ : ∃ before after, blocks = before ++ b :: after ∧
      before.length = k :=
    ⟨blocks.take k, blocks.drop (k + 1), by
      rw [← hget, ← drop_eq_getElem_cons hlt, take_append_drop], by
      rw [length_take]; omega⟩
  obtain ⟨last, hlast⟩ : ∃ last, blocks.getLast? = some last := by
    cases hl : blocks.getLast? with
    | none => simp [getLast?_eq_none_iff.mp hl] at hlt
    | some last => exact ⟨last, rfl⟩
  have hnum := h.numbered.getLast? hlast
  have hpos : (blockBytes codec before).length < 2 ^ 64 :=
    length_blockBytes_lt (hsplit ▸ h.size)
  have hindex : log.getBlockPosHelper (k + 1) = .ok (some (blockBytes codec before).length) := by
    unfold getBlockPosHelper
    rw [h.head, hlast]
    simp only
    rw [if_pos (by omega), h.indexFile, hsplit, indexBytes, Nat.add_sub_cancel, ← hlen,
      positions_append, drop_left' length_positions, zero_add, ← blockBytes, positions, starts,
      flatMap_cons, readU64_append hpos]
    rfl
  obtain ⟨next, hread⟩ := readBlockHelper_eq before after (h.blockFile.trans (by rw [hsplit]))
  unfold BlockLog.readBlockByNum
  rw [hindex]
  simp only [bind, Except.bind, hread, h.numbered k b hk]
  rfl

theorem Numbered.append (h : Numbered blocks) (hb : b.blockNum = blocks.length + 1) :
    Numbered (blocks ++ [b]) := by
  intro k c hk
  rw [List.getElem?_append] at hk
  split at hk
  · exact h k c hk
  rw [List.getElem?_singleton] at hk
  split at hk
  · obtain rfl : b = c := by simpa using hk
    omega
  · cases hk

/-- Appending the next block succeeds and gives the log of one block more. -/
theorem Holds.append (h : Holds codec log blocks) (hb : b.blockNum = blocks.length + 1)
    (hsize : (blockBytes codec (blocks ++ [b])).length < 2 ^ 64) :
    ∃ log', log.append codec b = .ok ((blockBytes codec blocks).length, log') ∧
      Holds codec log' (blocks ++ [b]) := by
  have hpos : ¬ log.indexFile.length ≠ 8 * (b.blockNum - 1) := by
    rw [h.indexFile, indexBytes, length_positions, hb]
    omega
  unfold BlockLog.append
  rw [if_neg hpos, h.blockFile]
  refine ⟨_, rfl, h.numbered.append hb, ?_, ?_, ?_, hsize⟩
  · simp
  · simp only [blockBytes, frames_append, frames_singleton, frame, Nat.zero_add,
      append_assoc]
  · simp only [h.indexFile, indexBytes, positions_append, positions_singleton, Nat.zero_add,
      blockBytes]

/-- The rebuilding loop writes the position of every block it meets. -/
theorem indexLoop_frames {rs : List (SignedBlock H P)} {fuel pos start endPos : Nat}
    {index : List UInt8} (hend : (starts codec.pack start rs).getLast? = some endPos)
    (hpos : pos < endPos) (hfuel : rs.length ≤ fuel)
    (hsize : start + (frames codec.pack start rs).length < 2 ^ 64) :
    indexLoop codec endPos fuel pos (frames codec.pack start rs) index =
      .ok (index ++ positions codec.pack start rs) := by
  induction rs generalizing fuel pos start index with
  | nil => cases hend
  | cons r rs ih =>
    obtain ⟨fuel, rfl⟩ : ∃ f, fuel = f + 1 := ⟨fuel - 1, by simp at hfuel; omega⟩
    rw [frames, length_append] at hsize
    rw [indexLoop, if_pos hpos, frames, frame, append_assoc, codec.unpack_pack]
    simp only [orThrow, bind, Except.bind]
    rw [readU64_append (by omega)]
    simp only
    have hposs : positions codec.pack start (r :: rs) = leBytes 8 start ++
        positions codec.pack (start + (frame codec.pack start r).length) rs := rfl
    rw [hposs, ← append_assoc]
    cases rs with
    | nil =>
      have hlast : endPos = start := by simpa [starts] using hend.symm
      unfold indexLoop
      rw [if_neg (by omega)]
      simp [positions, starts]
    | cons r' rs =>
      have hend' : (starts codec.pack (start + (frame codec.pack start r).length)
          (r' :: rs)).getLast? = some endPos := by
        exact hend
      have hlt : start < endPos := by
        have hle := le_of_mem_starts (mem_of_getLast? hend')
        rw [length_frame] at hle
        omega
      exact ih hend' hlt (by simpa using hfuel) (by rw [Nat.add_assoc]; exact hsize)

/-- A log of at least two blocks is given an exact index. -/
theorem constructIndex_eq (log : BlockLog H P) {init : List (SignedBlock H P)}
    {last : SignedBlock H P}
    (hfile : log.blockFile = blockBytes codec (init ++ [last])) (hinit : init ≠ [])
    (hsize : (blockBytes codec (init ++ [last])).length < 2 ^ 64) :
    log.constructIndex codec = .ok { log with indexFile := indexBytes codec (init ++ [last]) } := by
  have hle : (frames codec.pack 0 init).length < 2 ^ 64 := length_blockBytes_lt hsize
  have hpos : 0 < (frames codec.pack 0 init).length := by
    have hlen := @length_le_length_frames _ codec.pack 0 init
    have hne := length_pos_iff.mpr hinit
    omega
  have hend : (starts codec.pack 0 (init ++ [last])).getLast? =
      some (frames codec.pack 0 init).length := by
    simp [starts_append, starts]
  have hfuel : (init ++ [last]).length ≤ (frames codec.pack 0 (init ++ [last])).length := by
    have hlen := @length_le_length_frames _ codec.pack 0 (init ++ [last])
    omega
  unfold constructIndex
  rw [hfile, blockBytes, tailU64_frames hle]
  simp only [orThrow, bind, Except.bind]
  rw [indexLoop_frames hend hpos hfuel (by rw [Nat.zero_add]; exact hsize)]
  rfl

/-- Opening keeps an index whose last position agrees with the block file, and rebuilds the
index of two blocks or more otherwise. -/
theorem openFiles_cases (hnum : Numbered blocks) (hne : blocks ≠ [])
    (hsize : (blockBytes codec blocks).length < 2 ^ 64) (index : List UInt8) :
    (tailU64 index = tailU64 (blockBytes codec blocks) →
      openFiles codec (blockBytes codec blocks) index =
        .ok ⟨blocks.getLast?, blockBytes codec blocks, index⟩) ∧
    (tailU64 index ≠ tailU64 (blockBytes codec blocks) → 2 ≤ blocks.length →
      (index.length = 0 ∨ 8 ≤ index.length) →
      openFiles codec (blockBytes codec blocks) index =
        .ok ⟨blocks.getLast?, blockBytes codec blocks, indexBytes codec blocks⟩) := by
  obtain ⟨init, last, rfl⟩ : ∃ init last, blocks = init ++ [last] :=
    ⟨_, _, (dropLast_concat_getLast hne).symm⟩
  have hfile : (blockBytes codec (init ++ [last])).length ≠ 0 := by
    have hlen := @length_le_length_frames _ codec.pack 0 (init ++ [last])
    simp only [length_append, length_singleton] at hlen
    rw [blockBytes]
    omega
  have htail : tailU64 (blockBytes codec (init ++ [last])) =
      some (blockBytes codec init).length := tailU64_frames (length_blockBytes_lt hsize)
  have hhead : ({ blockFile := blockBytes codec (init ++ [last]), indexFile := index } :
      BlockLog H P).readHead codec = .ok last := by
    have hblocks : ({ blockFile := blockBytes codec (init ++ [last]), indexFile := index } :
      BlockLog H P).blockFile = blockBytes codec (init ++ [last]) := rfl
    obtain ⟨next, hread⟩ := readBlockHelper_eq init [] hblocks
    unfold readHead
    dsimp only
    rw [htail]
    simp only [orThrow, bind, Except.bind]
    rw [hread]
    rfl
  have hlast : (init ++ [last]).getLast? = some last := by simp
  unfold openFiles
  simp only [ne_eq, hfile, not_false_eq_true, if_true, hhead, htail, hlast, orThrow, bind,
    Except.bind]
  constructor
  · intro heq
    have hindex : ¬ index.length = 0 := by
      intro h0
      rw [tailU64, if_neg (by omega)] at heq
      cases heq
    simp only [hindex, not_false_eq_true, if_true, heq, lt_irrefl, if_false]
    rfl
  · intro hdiff hlen hshape
    have hinit : init ≠ [] := by
      rintro rfl
      simp at hlen
    have hcons := constructIndex_eq ⟨some last, blockBytes codec (init ++ [last]), index⟩
      rfl hinit hsize
    rcases hshape with h0 | h8
    · simp only [h0, not_true_eq_false, if_false]
      exact hcons
    have hindex : ¬ index.length = 0 := by omega
    obtain ⟨p, hp⟩ : ∃ p, tailU64 index = some p := ⟨_, if_pos h8⟩
    have hne' : p ≠ (blockBytes codec init).length := fun h => hdiff (hp.trans (by rw [h]))
    simp only [hindex, not_false_eq_true, if_true, hp]
    rcases Nat.lt_or_gt_of_ne hne' with hlt | hgt
    · rw [if_neg (by omega), if_pos hlt]
      exact hcons
    · rw [if_pos hgt]
      exact hcons

/-- The log has one entry per block with the start positions, returns each block by its number
and accepts the next block. -/
structure Serves (codec : BlockCodec H P) (log : BlockLog H P) (blocks : List (SignedBlock H P)) :
    Prop where
  indexFile : log.indexFile = (starts codec.pack 0 blocks).flatMap (leBytes 8)
  read : ∀ k b, blocks[k]? = some b → log.readBlockByNum codec (k + 1) = .ok (some b)
  append : ∀ b, b.blockNum = blocks.length + 1 →
    (blockBytes codec (blocks ++ [b])).length < 2 ^ 64 →
    ∃ log', log.append codec b = .ok ((blockBytes codec blocks).length, log') ∧
      log'.blockFile = blockBytes codec (blocks ++ [b]) ∧
      log'.indexFile = indexBytes codec (blocks ++ [b])

/-- A log that holds the blocks serves them. -/
theorem Holds.serves (h : Holds codec log blocks) : Serves codec log blocks where
  indexFile := h.indexFile
  read _ _ hk := h.readBlockByNum hk
  append _ hb hsize := by
    obtain ⟨log', hok, h'⟩ := h.append hb hsize
    exact ⟨log', hok, h'.blockFile, h'.indexFile⟩

/-- For every log of the blocks `1..n` and every index file: when the last eight bytes of the two
files agree, opening leaves the index as it is, so an exact index serves every block; when they
differ or there is no index, the log has two blocks or more and the index is not cut inside its
first entry, opening gives it an exact index and the log serves every block. -/
theorem openFiles_serves (codec : BlockCodec H P) (blocks : List (SignedBlock H P))
    (hnum : Numbered blocks) (hne : blocks ≠ [])
    (hsize : (blockBytes codec blocks).length < 2 ^ 64) (index : List UInt8) :
    (tailU64 index = tailU64 (blockBytes codec blocks) →
      ∃ log, openFiles codec (blockBytes codec blocks) index = .ok log ∧ log.indexFile = index ∧
        (index = indexBytes codec blocks → Serves codec log blocks)) ∧
    (tailU64 index ≠ tailU64 (blockBytes codec blocks) → 2 ≤ blocks.length →
      (index.length = 0 ∨ 8 ≤ index.length) →
      ∃ log, openFiles codec (blockBytes codec blocks) index = .ok log ∧
        Serves codec log blocks) := by
  obtain ⟨hkeep, hrebuild⟩ := openFiles_cases hnum hne hsize index
  constructor
  · intro heq
    refine ⟨_, hkeep heq, rfl, ?_⟩
    intro hexact
    exact Holds.serves ⟨hnum, rfl, rfl, hexact, hsize⟩
  · intro hdiff hlen hshape
    exact ⟨_, hrebuild hdiff hlen hshape, Holds.serves ⟨hnum, rfl, rfl, rfl, hsize⟩⟩

/-- A number in unary, ended by a zero byte. -/
def unary (n : Nat) : List UInt8 := List.replicate n 1 ++ [0]

def readUnary : List UInt8 → Option (Nat × List UInt8)
  | [] => none
  | 0 :: rest => some (0, rest)
  | _ :: rest => (readUnary rest).map fun (n, rest) => (n + 1, rest)

theorem readUnary_unary (n : Nat) (rest : List UInt8) :
    readUnary (unary n ++ rest) = some (n, rest) := by
  induction n with
  | zero => rfl
  | succ n ih =>
    have hcons : unary (n + 1) ++ rest = 1 :: (unary n ++ rest) := rfl
    rw [hcons, readUnary, ih]
    · rfl
    · decide

/-- A codec for blocks of numbers, for concrete logs. -/
def unaryCodec : BlockCodec Nat Nat where
  pack b := unary b.previous.num ++ (unary b.previous.hash ++ unary b.payload)
  unpack stream := do
    let (num, stream) ← readUnary stream
    let (hash, stream) ← readUnary stream
    let (payload, stream) ← readUnary stream
    return (⟨⟨num, hash⟩, payload⟩, stream)
  unpack_pack b rest := by
    simp only [List.append_assoc, readUnary_unary, bind, Option.bind]
    rfl

/-- Block 1 and block 2 on it. -/
def twoBlocks : List (SignedBlock Nat Nat) := [⟨⟨0, 0⟩, 1⟩, ⟨⟨1, 1⟩, 2⟩]

theorem twoBlocks_numbered : Numbered twoBlocks := by
  intro k b hk
  match k, hk with
  | 0, hk => obtain rfl : ⟨⟨0, 0⟩, 1⟩ = b := Option.some.inj hk; rfl
  | 1, hk => obtain rfl : ⟨⟨1, 1⟩, 2⟩ = b := Option.some.inj hk; rfl

/-- A log of two blocks without an index file. -/
theorem openFiles_serves_twoBlocks :
    ∃ log, openFiles unaryCodec (blockBytes unaryCodec twoBlocks) [] = .ok log ∧
      Serves unaryCodec log twoBlocks :=
  (openFiles_serves unaryCodec twoBlocks twoBlocks_numbered (by decide) (by decide) []).2
    (by decide) (by decide) (by decide)

/-- An index whose first entry is wrong and whose last entry is right is kept. -/
theorem openFiles_keeps_stale_index :
    Numbered twoBlocks ∧ ∃ log, openFiles unaryCodec (blockBytes unaryCodec twoBlocks)
      (leBytes 8 1 ++ leBytes 8 12) = .ok log ∧ ¬ Serves unaryCodec log twoBlocks := by
  refine ⟨twoBlocks_numbered, _, rfl, ?_⟩
  intro h
  exact absurd h.indexFile (by decide)

end Freezone.Chain.BlockLog
