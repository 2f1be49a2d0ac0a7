import Freezone.Chainbase.Refinement
import Freezone.Chain.Database.Outcomes

/-!
# What the store and the log stand for

The chain state is spread over the indices of the object database, which open,
undo and commit their sessions together, and the log is a pair of files. As long
as the rollbacks of the indices return, the store and the log of the model stand
for them: applying and popping a block keep the representation.
-/

namespace Freezone.Chain

open Protocol Chainbase List

variable {H P W S : Type}

namespace LoggedBlocks

variable {codec : BlockCodec H P} {files : BlockLog H P} {log log' : LoggedBlocks H P}
variable {b : SignedBlock H P}

/-- The files hold the blocks of the log. -/
def Filed (codec : BlockCodec H P) (files : BlockLog H P) (log : LoggedBlocks H P) : Prop :=
  BlockLog.Holds codec files log.blocks.reverse

/-- The log accepts a block exactly if the index file does. -/
theorem Filed.append (h : Filed codec files log)
    (hsize : (BlockLog.blockBytes codec (log.blocks.reverse ++ [b])).length < 2 ^ 64) :
    match log.append b with
    | some log' => ∃ pos files', files.append codec b = .ok (pos, files') ∧ Filed codec files' log'
    | none => files.append codec b = .error .wrongPosition := by
  have hlen : log.headNum = log.blocks.reverse.length := by
    rw [headNum_eq, length_reverse]
  by_cases hnum : b.blockNum = log.headNum + 1
  · have happ : log.append b = some ⟨b :: log.blocks, _⟩ := dif_pos hnum
    rw [happ]
    obtain ⟨files', hok, hholds⟩ := BlockLog.Holds.append h (by rw [← hlen]; exact hnum) hsize
    refine ⟨_, files', hok, ?_⟩
    unfold Filed
    rw [reverse_cons]
    exact hholds
  · have happ : log.append b = none := dif_neg hnum
    rw [happ]
    have hpos : files.indexFile.length ≠ 8 * (b.blockNum - 1) := by
      rw [h.indexFile, BlockLog.indexBytes, Records.length_positions, ← hlen]
      have hb : b.blockNum = b.previous.num + 1 := rfl
      omega
    simp only [BlockLog.append]
    rw [if_pos hpos]

/-- Reading a number gives the same from the files and from the log. -/
theorem Filed.readBlockByNum (h : Filed codec files log) (num : Nat) :
    files.readBlockByNum codec num = .ok (log.readBlockByNum num) := by
  have hnumbered := log.numbered
  cases hfind : log.readBlockByNum num with
  | some c =>
    have hmem := mem_of_find?_eq_some hfind
    have hnum : c.blockNum = num := by simpa using find?_some hfind
    obtain ⟨k, hk⟩ := mem_iff_getElem?.mp (mem_reverse.mpr hmem)
    have hk' := hnumbered k c hk
    have hread := BlockLog.Holds.readBlockByNum h hk
    rw [← hk', hnum] at hread
    exact hread
  | none =>
    -- no block has the number, so it is outside of the log
    have hout : ∀ head ∈ files.head, ¬ (num ≤ head.blockNum ∧ 0 < num) := by
      intro head hh hin
      rw [h.head, Option.mem_def] at hh
      have hlast := hnumbered.getLast? hh
      obtain ⟨c, hc⟩ : ∃ c, log.blocks.reverse[num - 1]? = some c :=
        ⟨_, List.getElem?_eq_getElem (by omega)⟩
      have hcnum := hnumbered (num - 1) c hc
      have hne := find?_eq_none.mp hfind c (mem_reverse.mp (mem_of_getElem? hc))
      simp only [beq_iff_eq] at hne
      omega
    have hnone : files.getBlockPosHelper num = .ok none := by
      unfold BlockLog.getBlockPosHelper
      cases hhead : files.head with
      | none => rfl
      | some head => simp only [if_neg (hout head hhead)]
    unfold BlockLog.readBlockByNum
    rw [hnone]
    rfl

/-- Appending blocks in order to the files. -/
def appendFiles (codec : BlockCodec H P) (files : BlockLog H P) :
    List (SignedBlock H P) → Except LogError (BlockLog H P)
  | [] => .ok files
  | b :: blocks =>
    match files.append codec b with
    | .error e => .error e
    | .ok (_, files') => appendFiles codec files' blocks

theorem append_eq_some (h : log.append b = some log') : log'.blocks = b :: log.blocks := by
  unfold append at h
  split at h
  · obtain rfl := Option.some.inj h
    rfl
  · cases h

/-- Appending blocks puts them, newest first, before those of the log. -/
theorem blocks_of_appendAll {blocks : List (SignedBlock H P)}
    (h : Database.appendAll log blocks = .ok () log') :
    log'.blocks.reverse = log.blocks.reverse ++ blocks := by
  induction blocks generalizing log with
  | nil =>
    cases h
    exact (append_nil _).symm
  | cons b blocks ih =>
    unfold Database.appendAll at h
    cases hb : log.append b with
    | none => simp [hb] at h
    | some log1 =>
      simp only [hb] at h
      rw [ih h, append_eq_some hb, reverse_cons, append_assoc, singleton_append]

/-- The loop that appends blocks, on the log and on the files: both accept all of them, or both
refuse the first block that does not follow. -/
theorem Filed.appendAll {blocks : List (SignedBlock H P)} (h : Filed codec files log)
    (hsize : (BlockLog.blockBytes codec (log.blocks.reverse ++ blocks)).length < 2 ^ 64) :
    match Database.appendAll log blocks with
    | .ok _ log' => ∃ files', appendFiles codec files blocks = .ok files' ∧ Filed codec files' log'
    | .error _ _ => appendFiles codec files blocks = .error .wrongPosition := by
  induction blocks generalizing files log with
  | nil => exact ⟨files, rfl, h⟩
  | cons b blocks ih =>
    have hsplit : log.blocks.reverse ++ b :: blocks = log.blocks.reverse ++ [b] ++ blocks := by simp
    rw [hsplit] at hsize
    have hstep := h.append (BlockLog.length_blockBytes_lt hsize)
    unfold Database.appendAll appendFiles
    cases hb : log.append b with
    | none =>
      rw [hb] at hstep
      simp only [hstep]
    | some log1 =>
      rw [hb] at hstep
      obtain ⟨pos, files1, hok, h1⟩ := hstep
      simp only [hok]
      refine ih h1 ?_
      rwa [append_eq_some hb, reverse_cons]

/-- The files follow the log: they accept the same blocks, and a number then reads the same. -/
theorem files_follow_log (h : Filed codec files log) (blocks : List (SignedBlock H P))
    (hsize : (BlockLog.blockBytes codec (log.blocks.reverse ++ blocks)).length < 2 ^ 64) :
    match Database.appendAll log blocks with
    | .ok _ log' => ∃ files', appendFiles codec files blocks = .ok files' ∧
        ∀ num, files'.readBlockByNum codec num = .ok (log'.readBlockByNum num)
    | .error _ _ => appendFiles codec files blocks = .error .wrongPosition := by
  have hall := h.appendAll hsize
  split at hall
  · obtain ⟨files', hok, h'⟩ := hall
    exact ⟨files', hok, h'.readBlockByNum⟩
  · exact hall

/-- Two blocks written to empty files and read back. -/
theorem files_follow_log_twoBlocks :
    ∃ files, appendFiles BlockLog.unaryCodec {} BlockLog.twoBlocks = .ok files ∧
      files.readBlockByNum BlockLog.unaryCodec 2 = .ok (some ⟨⟨1, 1⟩, 2⟩) ∧
      files.readBlockByNum BlockLog.unaryCodec 3 = .ok none := by
  have hempty : Filed BlockLog.unaryCodec {} empty := ⟨empty.numbered, rfl, rfl, rfl, by decide⟩
  obtain ⟨files, hok, hread⟩ := files_follow_log hempty BlockLog.twoBlocks (by decide)
  exact ⟨files, hok, hread 2, hread 3⟩

end LoggedBlocks

namespace Database

variable {ι : Type} {V K : ι → Type} [∀ i, DecidableEq (K i)] {keys : (i : ι) → List (V i → K i)}
variable {view : (i : ι) → ChainState H W S → Contents (keys i)}
variable {indices middle : (i : ι) → GenericIndex (keys i)} {codec : BlockCodec H P}
variable {files : BlockLog H P} {rules : Rules H P W S} {pinned : List (ForkItem H P)}
variable {b : SignedBlock H P} {s : ChainState H W S} {db db' : Database H P W S}
variable {ops : (i : ι) → List (ObjectOp (V i))}

variable [DecidableEq H] [HeaderHash H P]

/-- The indices and the files stand for the store and the log; `view i` is the part of the chain
state that the index `i` holds. -/
structure Represents (codec : BlockCodec H P)
    (view : (i : ι) → ChainState H W S → Contents (keys i))
    (files : BlockLog H P) (indices : (i : ι) → GenericIndex (keys i)) (db : Database H P W S) :
    Prop where
  stored : ∀ i, (indices i).Refines (db.store.map (view i))
  filed : LoggedBlocks.Filed codec files db.blockLog

/-- A block is popped: every index undoes its newest session. This returns if no key that a
modified object has to get back is taken. -/
theorem Represents.popped (h : Represents codec view files indices db)
    (hpop : popBlock pinned db = .ok () db') (hfree : ∀ i, (indices i).HeadKeysFree) :
    ∃ indices' : (i : ι) → GenericIndex (keys i),
      (∀ i, GenericIndex.undo.run (indices i) = .ok () (indices' i)) ∧
      Represents codec view files indices' db' := by
  choose indices' hindices using fun i => (h.stored i).exists_undo (hfree i)
  refine ⟨indices', hindices, ?_⟩
  rcases popBlock_cases pinned db with ⟨block, forkDb, -, -, hok⟩ | ⟨e, herr⟩
  · rw [hok] at hpop
    injection hpop with _ hdb
    subst hdb
    refine ⟨?_, h.filed⟩
    intro i
    simp only [Snapshots.map_undo]
    exact (h.stored i).undo (hindices i)
  · rw [herr] at hpop
    cases hpop

/-- The index whose only object is the number of the head block. -/
def headIndex (s : ChainState Nat Nat Unit) : GenericIndex [@id Nat] :=
  Exec.finalState ((GenericIndex.performAll [.create s.headBlockNumber]).run { revision := 1 })

/-- The session of block 2 changes the object to 2, and popping the block brings back 1. -/
theorem Represents.popped_second :
    let db := afterPush (plainRules [1, 2]) ⟨⟨1, 0⟩, 1⟩ (plainDatabase 0)
    let view := fun (_ : Unit) s => (headIndex s).contents
    ∃ files indices db' indices', Represents BlockLog.unaryCodec view files indices db ∧
      (indices ()).indices.objects[0]? = some 2 ∧ popBlock [] db = .ok () db' ∧
      Represents BlockLog.unaryCodec view files indices' db' ∧
      (indices' ()).indices.objects[0]? = some 1 := by
  intro db view
  have hopen : (headIndex (plainDatabase 0).store.current).Refines
      ((plainDatabase 0).store.map (view ())) := ⟨rfl, rfl, trivial⟩
  have hchange : (GenericIndex.performAll [.modify 0 fun _ => 2]).run
      (headIndex (plainDatabase 0).store.current).startUndoSession = .ok () _ := rfl
  have hsession := hopen.startUndoSession.performAll hchange
  have h : Represents BlockLog.unaryCodec view ⟨_, _, _⟩ (fun _ => _) db :=
    ⟨fun _ => hsession, numbered_plainBlocks 1, rfl, rfl, rfl, by decide⟩
  obtain ⟨indices', -, h'⟩ := h.popped (rfl : popBlock [] db = _) (by decide)
  have hback : (view () (plainDatabase 0).store.current) = (indices' ()).contents :=
    (h'.stored ()).current
  refine ⟨_, _, _, indices', h, rfl, rfl, h', ?_⟩
  exact (congrArg (fun c => c.indices.objects[0]?) hback).symm

variable [DecidableEq W]

/-- A block is applied: every index opens a session, makes its changes and commits up to the last
irreversible block, and the irreversible blocks are appended to the files. -/
theorem Represents.applied (h : Represents codec view files indices db)
    (happ : Applied rules pinned b s db db')
    (hops : ∀ i, (GenericIndex.performAll (ops i)).run (indices i).startUndoSession =
      .ok () (middle i))
    (hend : ∀ i, (middle i).contents = view i s)
    (hsize : (BlockLog.blockBytes codec db'.blockLog.blocks.reverse).length < 2 ^ 64) :
    ∃ blocks files', LoggedBlocks.appendFiles codec files blocks = .ok files' ∧
      Represents codec view files'
        (fun i => (middle i).commit s.lastIrreversibleBlockNum) db' := by
  obtain ⟨blocks, -, hlog⟩ := happ.logged
  rw [LoggedBlocks.blocks_of_appendAll hlog] at hsize
  have hall := h.filed.appendAll hsize
  rw [hlog] at hall
  obtain ⟨files', hfiles, hfiled⟩ := hall
  refine ⟨blocks, files', hfiles, ?_, hfiled⟩
  intro i
  rw [happ.store, Snapshots.map_commit, Snapshots.map_set, Snapshots.map_start, ← hend i]
  exact ((h.stored i).startUndoSession.performAll (hops i)).commit _

end Database

end Freezone.Chain
