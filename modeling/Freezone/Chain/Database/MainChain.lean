import Freezone.Chain.Database.Recovery

/-!
# Two heads and one main chain

Between pushes the head of the fork database is the head of the chain, the
sessions have their blocks in the index below it, and nothing in the index is
higher. A push keeps this if the block is valid when it extends the chain, if the
new branch is still linked to the main one when it does not, and if the fork
point stays within reach of the store.
-/

namespace Freezone.Chain.Database

open Protocol Ancestry List

variable {H P W S : Type} [DecidableEq H] [DecidableEq W] [HeaderHash H P]
variable {rules : Rules H P W S} {items first second : List (ForkItem H P)}
variable {newHead last : ForkItem H P} {forkDb : ForkDatabase H P} {b : SignedBlock H P}
variable {db db' : Database H P W S} {k : Nat}

/-- The fork database and the chain have the same head block, or none yet. -/
def HeadsAgree (db : Database H P W S) : Prop :=
  db.forkDb.head = none ∧ db.headBlockNum = 0 ∨
    ∃ head, db.forkDb.head = some head ∧ head.id = db.headBlockId

/-- The state between two pushes; `items` are the blocks of the sessions, newest first. -/
structure MainChain (rules : Rules H P W S) (db : Database H P W S)
    (items : List (ForkItem H P)) : Prop where
  coherent : db.forkDb.Coherent
  history : History rules db.store db.blockLog items
  line : db.forkDb.Line items
  heads : HeadsAgree db
  head_items : ∀ a ∈ items.head?, db.forkDb.head = some a
  top : ∀ a ∈ db.forkDb.index, a.num ≤ db.headBlockNum

namespace MainChain

theorem bounded (h : MainChain rules db items) : db.store.current.Bounded :=
  h.history.stacked.bounded _ (Stacked.current_mem db.store)

/-- The head of the fork database has the number of the head of the chain. -/
theorem head_num (h : MainChain rules db items) {head : ForkItem H P}
    (hh : db.forkDb.head = some head) : head.num = db.headBlockNum := by
  rcases h.heads with ⟨hnone, -⟩ | ⟨head', hsome, hid⟩
  · rw [hnone] at hh
    cases hh
  · rw [hh] at hsome
    obtain rfl : head = head' := by simpa using hsome
    have hnum := congrArg BlockId.num hid
    exact hnum.trans h.bounded.head

/-- A database at the end of an applied line. -/
theorem of_advancing {pinned l : List (ForkItem H P)} {n : Nat} {x : ForkItem H P}
    (h : Advancing rules pinned db (l.take n)) (hline : db.forkDb.Line (l.take n))
    (hl : l.head? = some x) (hhead : db.forkDb.head = some x) (hid : x.id = db.headBlockId)
    (htop : ∀ a ∈ db.forkDb.index, a.num ≤ db.headBlockNum) : MainChain rules db (l.take n) := by
  refine ⟨h.coherent, h.history, hline, Or.inr ⟨x, hhead, hid⟩, ?_, htop⟩
  intro a ha
  rw [head?_take] at ha
  split at ha
  · cases ha
  · rw [hl] at ha
    obtain rfl : x = a := by simpa using ha
    exact hhead

end MainChain

variable [Inhabited H]

/-- An opened database has no sessions. -/
theorem Opened.mainChain (h : Opened db) : MainChain rules db [] := by
  have hst := h.stacked
  obtain ⟨s, log, hp, hopen⟩ := h
  have hlength := hp.length
  unfold openDatabase at hopen
  split_ifs at hopen with hzero
  · cases hopen
    have hnil : log.blocks = [] := by
      rw [hzero] at hlength
      exact length_eq_zero_iff.mp hlength
    refine ⟨ForkDatabase.Coherent.empty, ⟨hst, trivial, hlength, hp.chained, ?_⟩,
      ForkDatabase.Line.nil, Or.inl ⟨rfl, hzero⟩, by simp, by simp⟩
    simp [hnil]
  · split at hopen
    · cases hopen
    rename_i head hread
    split at hopen
    · rename_i hid
      cases hopen
      have hlast : log.blocks.head? = some head := by
        obtain ⟨c, older, hblocks⟩ : ∃ c older, log.blocks = c :: older := by
          cases hb : log.blocks with
          | nil =>
            rw [hb] at hlength
            exact absurd hlength.symm hzero
          | cons c older => exact ⟨c, older, rfl⟩
        have hnum : log.headNum = c.blockNum := by rw [LoggedBlocks.headNum, hblocks]; rfl
        rw [LoggedBlocks.headNum_eq, hlength] at hnum
        rw [LoggedBlocks.readBlockByNum, hblocks, find?_cons, ← hnum] at hread
        simp only [beq_self_eq_true, Option.some.injEq] at hread
        rw [hblocks, hread]
        rfl
      have hnum : head.blockNum = s.headBlockNumber := by
        rw [← SignedBlock.id_num, hid, hp.bounded.head]
      refine ⟨ForkDatabase.Coherent.empty.startBlock head,
        ⟨hst, trivial, hlength, hp.chained, ?_⟩, ForkDatabase.Line.nil, Or.inr ⟨_, rfl, hid⟩,
        by simp, ?_⟩
      · intro c hc
        obtain rfl : head = c := by
          rw [map_nil, nil_append, hlast] at hc
          simpa using hc
        exact hid
      · intro a ha
        obtain rfl : a = ({} : ForkDatabase H P).newItem head none := by
          simpa [ForkDatabase.startBlock, ForkDatabase.insert, ForkDatabase.find] using ha
        exact le_of_eq hnum
    · cases hopen

/-- A block above the head becomes the head of the fork database and enters the index. -/
theorem MainChain.raised (h : MainChain rules db items) (hp : db.forkDb.pushBlock b = .ok forkDb)
    (hhead : forkDb.head = some newHead) (hnum : db.headBlockNum < newHead.num) :
    ∃ link, db.forkDb.linkOf b = .ok link ∧ newHead = db.forkDb.newItem b link ∧
      newHead ∈ forkDb.index ∧ (∀ a ∈ db.forkDb.index, a ∈ forkDb.index) ∧
      ∀ a ∈ forkDb.index, a ∈ db.forkDb.index ∨ a = newHead := by
  obtain ⟨link, hlink, rfl⟩ := ForkDatabase.pushBlock_eq_ok hp
  obtain ⟨hsub, hnew, hmem⟩ := db.forkDb.mem_index_attach b link
  have heq : newHead = db.forkDb.newItem b link := by
    rcases db.forkDb.attach_head b link with ⟨hh, -⟩ | ⟨head, hold, -, hh⟩
    · rw [hhead] at hh
      simpa using hh
    · rw [hhead] at hh
      obtain rfl : newHead = head := by simpa using hh
      have hold' := h.head_num hold
      omega
  refine ⟨link, hlink, heq, ?_, hsub, ?_⟩
  · rw [heq]
    refine hmem fun a ha hid => ?_
    have hle := h.top a ha
    have hsame : a.num = newHead.num := by
      rw [heq]
      exact congrArg BlockId.num hid
    omega
  · intro a ha
    rw [heq]
    exact hnew a ha

/-- A block that is not above the head only enters the index. -/
theorem MainChain.stored (h : MainChain rules db items) (hp : db.forkDb.pushBlock b = .ok forkDb)
    (hhead : forkDb.head = some newHead) (hnum : newHead.num ≤ db.headBlockNum) :
    MainChain rules { db with forkDb := forkDb } items := by
  have hcoh := h.coherent.pushBlock hp
  obtain ⟨link, -, rfl⟩ := ForkDatabase.pushBlock_eq_ok hp
  obtain ⟨hsub, hnew, -⟩ := db.forkDb.mem_index_attach b link
  rcases db.forkDb.attach_head b link with ⟨hh, hlow⟩ | ⟨head, hold, hle, hh⟩
  · -- a new head would be above the old one
    exfalso
    rw [hhead] at hh
    obtain rfl : newHead = db.forkDb.newItem b link := by simpa using hh
    rcases h.heads with ⟨-, hzero⟩ | ⟨head, hsome, -⟩
    · have hpos : (db.forkDb.newItem b link).num = b.previous.num + 1 := rfl
      omega
    · have hlt := hlow head hsome
      have hhn := h.head_num hsome
      have hb : (db.forkDb.newItem b link).num = b.blockNum := rfl
      omega
  · have hsame : (db.forkDb.attach b link).head = db.forkDb.head := hh.trans hold.symm
    refine ⟨hcoh, h.history, h.line.of_index fun a ha => hsub a (h.line.indexed a ha), ?_, ?_, ?_⟩
    · exact .inr ⟨head, hh, by
        rcases h.heads with ⟨hnone, -⟩ | ⟨head', hsome, hid⟩
        · rw [hnone] at hold
          cases hold
        · rw [hold] at hsome
          obtain rfl : head = head' := by simpa using hsome
          exact hid⟩
    · intro a ha
      exact hsame.trans (h.head_items a ha)
    · intro a ha
      rcases hnew a ha with ha | rfl
      · exact h.top a ha
      · have hhn := h.head_num hold
        exact hle.trans (le_of_eq hhn)

/-- A block on top of the head is linked to the block of the newest session. -/
theorem MainChain.linkOf_eq (h : MainChain rules db items) {link : Option Nat}
    (hlink : db.forkDb.linkOf b = .ok link) (hprev : b.previous = db.headBlockId)
    {a : ForkItem H P} (ha : a ∈ items.head?) : link = some a.handle := by
  have hhead := h.head_items a ha
  have hmem : a ∈ db.forkDb.index := h.line.indexed a (mem_of_mem_head? ha)
  have hid : a.id = b.previous := by
    rw [hprev]
    exact h.history.tip a.data (by
      cases items with
      | nil => cases ha
      | cons c items =>
        obtain rfl : c = a := by simpa using ha
        simp)
  have hfind : db.forkDb.find b.previous = some a :=
    (ForkDatabase.find_eq_some_iff_mem h.coherent.ids).mpr ⟨hmem, hid⟩
  have hzero : ¬ b.previous = BlockId.zero := by
    intro hz
    have hnum := congrArg BlockId.num (hid.trans hz)
    have hpos : a.id.num = a.data.previous.num + 1 := rfl
    exact Nat.succ_ne_zero _ hnum
  have hvalid := h.coherent.valid a (h.coherent.index_created a hmem)
  unfold ForkDatabase.linkOf at hlink
  rw [hhead] at hlink
  simp only [hfind, hvalid] at hlink
  split at hlink
  · cases hlink
  · simpa using hlink.symm

/-- The push of a valid block on top of the head. -/
theorem MainChain.extended (h : MainChain rules db items) (hp : db.forkDb.pushBlock b = .ok forkDb)
    (hhead : forkDb.head = some newHead) (hprev : newHead.previousId = db.headBlockId)
    {s : ChainState H W S} (heval : rules.evaluate b db.store.current = some s) :
    ∃ db' items', extendHead rules newHead b { db with forkDb := forkDb } = .ok false db' ∧
      MainChain rules db' items' ∧ db.blockLog.blocks <:+ db'.blockLog.blocks ∧
      db'.blockLog.blocks.length = highestMark db.blockLog.blocks.length [s] := by
  have hcoh := h.coherent.pushBlock hp
  have hnext : newHead.num = db.headBlockNum + 1 := h.bounded.blockNum hprev
  obtain ⟨link, hlink, rfl, hmem, hsub, hnew⟩ := h.raised hp hhead (by omega)
  have hline : forkDb.Line (db.forkDb.newItem b link :: items) := by
    refine ⟨?_, ?_⟩
    · intro a ha
      rcases mem_cons.mp ha with rfl | ha
      · exact hmem
      · exact hsub a (h.line.indexed a ha)
    · refine h.line.linked.cons ?_
      intro a ha
      exact h.linkOf_eq hlink hprev ha
  have hadv : Advancing rules [db.forkDb.newItem b link] { db with forkDb := forkDb } items := by
    refine ⟨hcoh, ?_, h.history⟩
    intro i hi
    obtain rfl : i = db.forkDb.newItem b link := by simpa using hi
    exact hcoh.index_created _ hmem
  have hreached : rules.reached db.store.current
      ([db.forkDb.newItem b link].map ForkItem.data) = [s] := by
    rw [map_singleton, Rules.reached, show (db.forkDb.newItem b link).data = b from rfl, heval]
    rfl
  obtain ⟨db', hok, hadv', hline', had⟩ := hadv.applyItems [db.forkDb.newItem b link]
    (by simpa using hline) (by simp only [hreached]; rfl)
  have happ : applyInSession rules [db.forkDb.newItem b link] b { db with forkDb := forkDb } =
      .ok () db' := by
    have hset : forkDb.setHead (db.forkDb.newItem b link) = forkDb := by
      rw [ForkDatabase.setHead, ← hhead]
    unfold applyItems applyItem at hok
    simp only [hset] at hok
    cases hr : applyInSession rules [db.forkDb.newItem b link] b { db with forkDb := forkDb } with
    | error e db1 =>
      rw [show (db.forkDb.newItem b link).data = b from rfl, hr] at hok
      cases hok
    | ok _ db1 =>
      rw [show (db.forkDb.newItem b link).data = b from rfl, hr] at hok
      simpa [applyItems] using hok
  have hcur : db'.store.current = s := by
    rw [had.current]
    simp only [hreached]
    rfl
  obtain ⟨hsnum, hsid⟩ := Rules.evaluate_head heval
  have hnum' : db'.headBlockNum = (db.forkDb.newItem b link).num := by
    rw [headBlockNum, hcur, hsnum]
    rfl
  have hlength := had.length_log
  simp only [hreached] at hlength
  refine ⟨db', _, by rw [extendHead, happ], of_advancing hadv' hline' rfl had.head ?_ ?_, had.log,
    hlength⟩
  · rw [headBlockId, hcur, hsid]
    rfl
  intro a ha
  rw [hnum']
  rcases hnew a (had.index_subset a ha) with ha | rfl
  · have hle := h.top a ha
    omega
  · exact le_rfl

end Freezone.Chain.Database
