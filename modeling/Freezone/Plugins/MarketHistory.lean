import Freezone.Core.Safe
import Freezone.Core.SortedRange
import Freezone.Core.Table
import Freezone.Protocol.Price

/-!
# Market history

For each size of its configuration the plugin keeps a bucket for every market and
stretch of time in which orders were filled. A fill that falls into a bucket
already there also prunes, walking an index that all markets and sizes share.
-/

namespace Freezone.Plugins.MarketHistory

open Freezone.Protocol AssetSymbol List

/-- `fill_order_operation`: the matching engine trades positive amounts, one of them `freezone`. -/
structure FillOrder where
  currentPays : Asset AssetSymbol
  openPays : Asset AssetSymbol
  current_pos : 0 < currentPays.amount
  open_pos : 0 < openPays.amount
  one_freezone : currentPays.symbol = freezone ↔ openPays.symbol ≠ freezone

namespace FillOrder

variable (op : FillOrder)

/-- `order_history_object::market`. -/
def marketSymbol : AssetSymbol :=
  if op.currentPays.symbol = freezone then op.openPays.symbol else op.currentPays.symbol

def freezonePays : Asset AssetSymbol :=
  if op.openPays.symbol = freezone then op.openPays else op.currentPays

def nonFreezonePays : Asset AssetSymbol :=
  if op.openPays.symbol = freezone then op.currentPays else op.openPays

theorem freezonePays_symbol : op.freezonePays.symbol = freezone := by
  unfold freezonePays
  split_ifs with h
  · exact h
  · exact op.one_freezone.mpr h

theorem nonFreezonePays_symbol : op.nonFreezonePays.symbol = op.marketSymbol := by
  unfold nonFreezonePays marketSymbol
  by_cases h : op.openPays.symbol = freezone
  · rw [if_pos h, if_neg fun hc => op.one_freezone.mp hc h]
  · rw [if_neg h, if_pos (op.one_freezone.mpr h)]

/-- The price of a fill, `freezone` as the quote. -/
def price : Price AssetSymbol where
  base := op.nonFreezonePays
  quote := op.freezonePays
  base_pos := by
    unfold nonFreezonePays
    split_ifs
    exacts [op.current_pos, op.open_pos]
  quote_pos := by
    unfold freezonePays
    split_ifs
    exacts [op.open_pos, op.current_pos]
  symbol_ne := by
    rw [freezonePays_symbol]
    unfold nonFreezonePays
    split_ifs with h
    exacts [fun hc => op.one_freezone.mp hc h, h]

end FillOrder

/-- `bucket_object_details`. -/
structure Details where
  high : Int
  low : Int
  opened : Int
  close : Int
  volume : Int

namespace Details

/-- `fill`. -/
def fill (val : Int) : Details := ⟨val, val, val, val, val⟩

/-- What a further fill changes. -/
def trade (d : Details) (amount volume : Int) (rises falls : Bool) : Details where
  high := if rises then amount else d.high
  low := if falls then amount else d.low
  opened := d.opened
  close := amount
  volume := volume

end Details

/-- The key of a `bucket_object`. -/
structure BucketKey where
  symbol : AssetSymbol
  seconds : Nat
  opened : Nat
  deriving DecidableEq

/-- The place of a bucket in the index `by_bucket`. -/
def BucketKey.rank (k : BucketKey) : AssetSymbol ×ₗ Nat ×ₗ Nat :=
  toLex (k.symbol, toLex (k.seconds, k.opened))

/-- The bucket of a size into which a fill falls. -/
def FillOrder.bucket (op : FillOrder) (now seconds : Nat) : BucketKey :=
  ⟨op.marketSymbol, seconds, now / seconds * seconds⟩

/-- `bucket_object`, the fields that are not its key. -/
structure Bucket where
  freezone : Details
  nonFreezone : Details

namespace Bucket

/-- The bucket that a first fill creates. -/
def create (op : FillOrder) : Bucket :=
  ⟨.fill op.freezonePays.amount, .fill op.nonFreezonePays.amount⟩

/-- One of the two mirrored branches that modify a bucket. -/
def trade (b : Bucket) (pays others : Asset AssetSymbol) : Except String Bucket := do
  let volume ← Safe.add b.freezone.volume pays.amount
  let otherVolume ← Safe.add b.nonFreezone.volume others.amount
  let high ← Price.make ⟨b.nonFreezone.high, others.symbol⟩ ⟨b.freezone.high, .freezone⟩
  let price ← Price.make others pays
  let low ← Price.make ⟨b.nonFreezone.low, others.symbol⟩ ⟨b.freezone.low, .freezone⟩
  .ok {
    freezone := b.freezone.trade pays.amount volume (price.Gt high) (low.Gt price)
    nonFreezone := b.nonFreezone.trade others.amount otherVolume (price.Gt high) (low.Gt price) }

def modify (b : Bucket) (op : FillOrder) : Except String Bucket :=
  if op.openPays.symbol = .freezone then b.trade op.openPays op.currentPays
  else b.trade op.currentPays op.openPays

end Bucket

/-- How the handler ends other than by a return: undefined behaviour, or an exception. -/
inductive Fault
  | divideByZero
  | pastEnd
  | threw (text : String)

/-- The options of the plugin. -/
structure Config where
  trackedBuckets : List Nat
  maximumHistoryTrackTime : Int

/-- The history limit, which is converted to seconds of 32 bits where it is compared. -/
def Config.cutoff (cfg : Config) (now : Nat) : Int := (now - cfg.maximumHistoryTrackTime) % 2 ^ 32

/-- The keys from `lower_bound` on. -/
def keysFrom (first : BucketKey) (index : Table BucketKey Bucket) : List BucketKey :=
  ((index.entries.map Prod.fst).filter fun k => first.rank ≤ k.rank).insertionSort
    fun k k' => k.rank ≤ k'.rank

/-- The keys that the pruning walk removes; `itr` is read before it is compared with `end`. -/
def prune (seconds : Nat) (cutoff : Int) : List BucketKey → Except Fault (List BucketKey)
  | [] => .error .pastEnd
  | k :: l =>
    if k.seconds = seconds ∧ k.opened < cutoff then
        (prune seconds cutoff l).map fun gone => k :: gone
    else .ok []

/-- One iteration of the loop over the bucket sizes. -/
def record (cfg : Config) (now : Nat) (op : FillOrder) (index : Table BucketKey Bucket)
    (bucket : Nat) : Except Fault (Table BucketKey Bucket) :=
  if bucket = 0 then .error .divideByZero else
  match index.find? (op.bucket now bucket) with
  | none =>
    match index.insert ⟨op.nonFreezonePays.symbol, bucket, now / bucket * bucket⟩ (.create op) with
    | none =>
      .error (.threw "could not insert object, most likely a uniqueness constraint was violated")
    | some index => .ok index
  | some b =>
    match b.modify op with
    | .error text => .error (.threw text)
    | .ok b' =>
      let index := index.set (op.bucket now bucket) b'
      if 0 < cfg.maximumHistoryTrackTime then
        (prune bucket (cfg.cutoff now)
          (keysFrom ⟨op.marketSymbol, bucket, 0⟩ index)).map fun gone => index.restrict (· ∉ gone)
      else .ok index

/-- The objects of the plugin: its buckets, and the fills with their times. -/
structure State where
  buckets : Table BucketKey Bucket
  orderHistory : List (Nat × FillOrder)

/-- `on_post_apply_operation` for a fill at a head block time. -/
def onPostApplyOperation (cfg : Config) (now : Nat) (op : FillOrder) (S : State) :
    Except Fault State := do
  let orderHistory := S.orderHistory ++ [(now, op)]
  if cfg.maximumHistoryTrackTime = 0 ∨ cfg.trackedBuckets = [] then
    .ok { S with orderHistory }
  else
    let buckets ← cfg.trackedBuckets.foldlM (record cfg now op) S.buckets
    .ok { buckets, orderHistory }

/-! ## What a bucket summarises -/

/-- The two amounts of a bucket under one heading are those of a fill. -/
def Bucket.Shows (b : Bucket) (x : Details → Int) (op : FillOrder) : Prop :=
  x b.freezone = op.freezonePays.amount ∧ x b.nonFreezone = op.nonFreezonePays.amount

/-- The amounts under a heading are those of a fill that comes first by a rank. -/
def Bucket.ShowsMost (b : Bucket) (x : Details → Int) (rank : FillOrder → ℚ)
    (fills : List FillOrder) : Prop :=
  ∃ f ∈ fills, b.Shows x f ∧ ∀ g ∈ fills, rank g ≤ rank f

/-- A bucket holds the volumes, the first, the last and the extreme prices of some fills. -/
structure Summarises (fills : List FillOrder) (b : Bucket) : Prop where
  volume : b.freezone.volume = (fills.map fun f => f.freezonePays.amount).sum
  otherVolume : b.nonFreezone.volume = (fills.map fun f => f.nonFreezonePays.amount).sum
  opened : ∃ f, fills.head? = some f ∧ b.Shows Details.opened f
  close : ∃ f, fills.getLast? = some f ∧ b.Shows Details.close f
  high : b.ShowsMost Details.high (fun f => f.price.ratio) fills
  low : b.ShowsMost Details.low (fun f => -f.price.ratio) fills

variable {cfg : Config} {now last size : Nat} {op : FillOrder} {b n : Bucket}
  {fills : List FillOrder} {B C : Table BucketKey Bucket} {H : List (Nat × FillOrder)}

/-- A new bucket summarises its first fill. -/
theorem summarises_create (op : FillOrder) : Summarises [op] (.create op) where
  volume := (sum_singleton ..).symm
  otherVolume := (sum_singleton ..).symm
  opened := ⟨op, rfl, rfl, rfl⟩
  close := ⟨op, rfl, rfl, rfl⟩
  high := ⟨op, mem_singleton_self op, ⟨rfl, rfl⟩, by simp⟩
  low := ⟨op, mem_singleton_self op, ⟨rfl, rfl⟩, by simp⟩

/-- A further fill takes a heading over just when it ranks above the one shown. -/
theorem Bucket.ShowsMost.append {x : Details → Int} {rank : FillOrder → ℚ}
    (h : b.ShowsMost x rank fills) (hn : ∀ f, b.Shows x f →
      n.Shows x (if rank f < rank op then op else f)) : n.ShowsMost x rank (fills ++ [op]) := by
  obtain ⟨f, hf, hshows, hmost⟩ := h
  have hn := hn f hshows
  by_cases hlt : rank f < rank op
  · rw [if_pos hlt] at hn
    refine ⟨op, by simp, hn, fun g hg => ?_⟩
    rcases mem_append.mp hg with hg | hg
    · exact (hmost g hg).trans hlt.le
    · rw [mem_singleton.mp hg]
  · rw [if_neg hlt] at hn
    refine ⟨f, mem_append_left _ hf, hn, fun g hg => ?_⟩
    rcases mem_append.mp hg with hg | hg
    · exact hmost g hg
    · rw [mem_singleton.mp hg]
      exact not_lt.mp hlt

/-- A bucket that a fill modifies summarises that fill as well. -/
theorem Summarises.modify (hs : Summarises fills b) (h : b.modify op = .ok n) :
    Summarises (fills ++ [op]) n := by
  have hbranch : b.modify op = b.trade op.freezonePays op.nonFreezonePays := by
    unfold Bucket.modify FillOrder.freezonePays FillOrder.nonFreezonePays
    split_ifs <;> rfl
  simp only [hbranch, Bucket.trade, returns, Safe.add_eq_ok] at h
  obtain ⟨volume, ⟨-, rfl⟩, otherVolume, ⟨-, rfl⟩, high, hhigh, price, hprice, low, hlow, rfl⟩ := h
  obtain ⟨hpb, hpq⟩ := Price.make_eq_ok hprice
  have hratio : price.ratio = op.price.ratio := by
    rw [Price.ratio, hpb, hpq]
    rfl
  -- the prices compared are of one market, so the amounts decide
  have hgt : ∀ {p q : Price AssetSymbol}, p.symbols = q.symbols → (p.Gt q ↔ q.ratio < p.ratio) := by
    intro p q hsame
    rw [Price.Gt, if_neg (not_not.mpr hsame), Price.ratio_lt_iff]
  have hshown : ∀ (x : Details → Int) {q : Price AssetSymbol} {f : FillOrder},
      Price.make ⟨x b.nonFreezone, op.nonFreezonePays.symbol⟩ ⟨x b.freezone, freezone⟩ = .ok q →
      b.Shows x f → price.symbols = q.symbols ∧ q.ratio = f.price.ratio := by
    intro x q f hq hf
    obtain ⟨hb, hq⟩ := Price.make_eq_ok hq
    rw [Price.symbols, Price.symbols, Price.ratio, hb, hq, hpb, hpq, hf.1, hf.2,
      op.freezonePays_symbol]
    exact ⟨rfl, rfl⟩
  refine ⟨?_, ?_, ?_, ⟨op, by simp, rfl, rfl⟩, ?_, ?_⟩
  · simp [Details.trade, hs.volume]
  · simp [Details.trade, hs.otherVolume]
  · obtain ⟨f, hf, hshows⟩ := hs.opened
    exact ⟨f, by simp [hf], hshows⟩
  · refine hs.high.append fun f hf => ?_
    obtain ⟨hsame, hold⟩ := hshown Details.high hhigh hf
    simp only [Bucket.Shows, Details.trade, hgt hsame, hold, hratio, decide_eq_true_eq]
    split_ifs
    exacts [⟨rfl, rfl⟩, hf]
  · refine hs.low.append fun f hf => ?_
    obtain ⟨hsame, hold⟩ := hshown Details.low hlow hf
    simp only [Bucket.Shows, Details.trade, hgt hsame.symm, hold, hratio, decide_eq_true_eq,
      neg_lt_neg_iff]
    split_ifs
    exacts [⟨rfl, rfl⟩, hf]

/-! ## One iteration -/

/-- The limited history reaches back to the start of the current bucket of a size, and its limit
is a time of 32 bits. -/
def Config.Covers (cfg : Config) (now size : Nat) : Prop :=
  0 < cfg.maximumHistoryTrackTime → (now % size : Nat) ≤ cfg.maximumHistoryTrackTime ∧
    0 ≤ now - cfg.maximumHistoryTrackTime ∧ now - cfg.maximumHistoryTrackTime < 2 ^ 32

/-- A time lies before the history limit. -/
def Config.Old (cfg : Config) (now time : Nat) : Prop :=
  0 < cfg.maximumHistoryTrackTime ∧ time < now - cfg.maximumHistoryTrackTime

/-- The current bucket is not old if the history covers it. -/
theorem Config.Covers.not_old (h : cfg.Covers now size) : ¬ cfg.Old now (now / size * size) := by
  rintro ⟨htrack, hold⟩
  have hdiv := Nat.div_add_mod' now size
  have hmod := (h htrack).1
  omega

/-- Under a limit of 32 bits the buckets before the cutoff are the old ones. -/
theorem Config.Covers.lt_cutoff_iff (h : cfg.Covers now size)
    (htrack : 0 < cfg.maximumHistoryTrackTime) (time : Nat) :
    time < cfg.cutoff now ↔ cfg.Old now time := by
  obtain ⟨-, hnonneg, hlt⟩ := h htrack
  rw [Config.cutoff, Int.emod_eq_of_lt hnonneg hlt, Config.Old, and_iff_right htrack]

/-- What an iteration that returns made of the index: only old buckets of the market and the size of
the fill are gone. -/
structure Recorded (cfg : Config) (now : Nat) (op : FillOrder) (size : Nat)
    (B C : Table BucketKey Bucket) : Prop where
  size_ne : size ≠ 0
  others : ∀ k, k ≠ op.bucket now size → C.find? k = B.find? k ∨
    C.find? k = none ∧ k.symbol = op.marketSymbol ∧ k.seconds = size ∧ cfg.Old now k.opened
  current : ∃ n, C.find? (op.bucket now size) = some n ∧
    (B.find? (op.bucket now size) = none ∧ n = .create op ∨
      ∃ b, B.find? (op.bucket now size) = some b ∧ b.modify op = .ok n)

/-- The walk stops at a bucket that is not old, and meets only buckets before it. -/
theorem prune_of_stop (size : Nat) {cutoff : Int} {k : BucketKey} {l : List BucketKey}
    (hl : l.Pairwise fun k k' => k.rank ≤ k'.rank) (hk : k ∈ l) (hstop : cutoff ≤ k.opened) :
    ∃ gone, prune size cutoff l = .ok gone ∧ ∀ g ∈ gone, g ∈ l ∧ g.rank ≤ k.rank ∧
      g.seconds = size ∧ g.opened < cutoff := by
  induction l with
  | nil => cases hk
  | cons a l ih =>
    obtain ⟨ha, hl⟩ := pairwise_cons.mp hl
    rw [prune]
    split_ifs with hold
    · -- a bucket that is removed is not the one at which the walk stops
      have hkl : k ∈ l := (mem_cons.mp hk).resolve_left fun h => by
        rw [h] at hstop
        exact absurd hold.2 (not_lt.mpr hstop)
      obtain ⟨gone, hgone, hspec⟩ := ih hl hkl
      refine ⟨a :: gone, by rw [hgone]; rfl, fun g hg => ?_⟩
      rcases mem_cons.mp hg with rfl | hg
      · exact ⟨mem_cons_self, ha k hkl, hold⟩
      · exact ⟨mem_cons_of_mem _ (hspec g hg).1, (hspec g hg).2⟩
    · exact ⟨[], rfl, fun g hg => by cases hg⟩

/-- An iteration whose current bucket the history covers stays within the index. -/
theorem record_spec (hnow : cfg.Covers now size) : record cfg now op B size ≠ .error .pastEnd ∧
    ∀ C, record cfg now op B size = .ok C → Recorded cfg now op size B C := by
  have hkey : ⟨op.nonFreezonePays.symbol, size, now / size * size⟩ = op.bucket now size := by
    rw [op.nonFreezonePays_symbol]
    rfl
  unfold record
  by_cases hsize : size = 0
  · simp [hsize]
  simp only [if_neg hsize, hkey]
  cases hfind : B.find? (op.bucket now size) with
  | none =>
    cases hinsert : B.insert (op.bucket now size) (.create op) with
    | none => simp
    | some B' =>
      simp only [ne_eq, reduceCtorEq, not_false_eq_true, Except.ok.injEq, true_and]
      rintro _ rfl
      exact ⟨hsize, fun k hk => Or.inl (by rw [Table.find?_insert hinsert, if_neg hk]), _,
        by rw [Table.find?_insert hinsert, if_pos rfl], Or.inl ⟨hfind, rfl⟩⟩
  | some b =>
    cases hmod : b.modify op with
    | error text => simp [hmod]
    | ok n =>
      have hset := fun k => Table.find?_set hfind n k
      simp only [hmod]
      split_ifs with htrack
      · -- the current bucket opens after the limit, so the walk ends there at the latest
        have hin : op.bucket now size ∈
            keysFrom ⟨op.marketSymbol, size, 0⟩ (B.set (op.bucket now size) n) := by
          have hle : (⟨op.marketSymbol, size, 0⟩ : BucketKey).rank ≤ (op.bucket now size).rank := by
            simp [BucketKey.rank, FillOrder.bucket, Prod.Lex.toLex_le_toLex]
          have hsome := Table.find?_eq_some.mp ((hset _).trans (if_pos rfl))
          rw [keysFrom, mem_insertionSort, mem_filter]
          exact ⟨mem_map_of_mem hsome, decide_eq_true hle⟩
        obtain ⟨gone, hprune, hgone⟩ := prune_of_stop size
          (SortedRange.pairwise_insertionSort BucketKey.rank (fun _ _ => Iff.rfl) _) hin
          (not_lt.mp fun hlt => hnow.not_old ((hnow.lt_cutoff_iff htrack _).mp hlt))
        rw [keysFrom, hprune]
        simp only [Except.map, ne_eq, reduceCtorEq, not_false_eq_true, Except.ok.injEq, true_and]
        rintro _ rfl
        have hC := fun k => Table.find?_restrict (B.set (op.bucket now size) n) (· ∉ gone) k
        refine ⟨hsize, fun k hk => ?_, n, ?_, Or.inr ⟨b, hfind, hmod⟩⟩
        · rw [hC, hset, if_neg hk]
          split_ifs with hg
          · obtain ⟨hmem, hle, hseconds, hold⟩ := hgone k hg
            rw [mem_insertionSort, mem_filter, decide_eq_true_eq] at hmem
            -- the keys between two of one market are of that market
            exact .inr ⟨rfl, le_antisymm (Prod.Lex.monotone_fst _ _ hle)
              (Prod.Lex.monotone_fst _ _ hmem.2), hseconds, (hnow.lt_cutoff_iff htrack _).mp hold⟩
          · exact .inl rfl
        · rw [hC, hset, if_pos rfl, if_pos]
          intro hg
          exact hnow.not_old ((hnow.lt_cutoff_iff htrack _).mp (hgone _ hg).2.2.2)
      · simp only [ne_eq, reduceCtorEq, not_false_eq_true, Except.ok.injEq, true_and]
        rintro _ rfl
        exact ⟨hsize, fun k hk => Or.inl (by rw [hset, if_neg hk]), n, by rw [hset, if_pos rfl],
          Or.inr ⟨b, hfind, hmod⟩⟩

/-! ## Whole runs -/

/-- The fills that fell into a bucket. -/
def fillsOf (H : List (Nat × FillOrder)) (k : BucketKey) : List FillOrder :=
  (H.filter fun h => h.2.bucket h.1 k.seconds = k).map Prod.snd

/-- The index between two iterations. `hist` tells how far each size has taken in the history, of
which it misses only what is too old. -/
structure Sound (cfg : Config) (now : Nat) (hist : Nat → List (Nat × FillOrder))
    (B : Table BucketKey Bucket) : Prop where
  summarises : ∀ k b, B.find? k = some b → k.seconds ∈ cfg.trackedBuckets ∧ k.seconds ≠ 0 ∧
    Summarises (fillsOf (hist k.seconds) k) b
  present : ∀ size ∈ cfg.trackedBuckets, ∀ h ∈ hist size,
    B.find? (h.2.bucket h.1 size) ≠ none ∨ cfg.Old now (h.1 / size * size)

/-- The history stays sound while time passes. -/
theorem Sound.mono {hist : Nat → List (Nat × FillOrder)} (h : Sound cfg last hist B)
    (hle : last ≤ now) : Sound cfg now hist B where
  summarises := h.summarises
  present size hsize e he := (h.present size hsize e he).imp_right fun ⟨htrack, hold⟩ =>
    ⟨htrack, by omega⟩

/-- An iteration takes the fill into the history of its size. -/
theorem Sound.record {hist : Nat → List (Nat × FillOrder)} (h : Sound cfg now hist B)
    (hnow : cfg.Covers now size) (hsize : size ∈ cfg.trackedBuckets)
    (hr : record cfg now op B size = .ok C) :
    Sound cfg now (Function.update hist size (hist size ++ [(now, op)])) C := by
  obtain ⟨hne, hothers, n, hn, hcurrent⟩ := (record_spec hnow).2 C hr
  refine ⟨fun k c hc => ?_, fun s hs e he => ?_⟩
  · by_cases hk : k = op.bucket now size
    · subst hk
      rw [hn, Option.some.injEq] at hc
      subst hc
      have hseconds : (op.bucket now size).seconds = size := rfl
      rw [hseconds, Function.update_self]
      refine ⟨hsize, hne, ?_⟩
      have hfills : fillsOf (hist size ++ [(now, op)]) (op.bucket now size) =
          fillsOf (hist size) (op.bucket now size) ++ [op] := by
        simp [fillsOf, hseconds]
      rw [hfills]
      rcases hcurrent with ⟨hnone, rfl⟩ | ⟨b, hb, hmod⟩
      · -- fills before this one would have left a bucket that is not yet too old
        have hnil : fillsOf (hist size) (op.bucket now size) = [] := by
          rw [fillsOf, map_eq_nil_iff, filter_eq_nil_iff]
          intro e he hekey
          rw [decide_eq_true_eq] at hekey
          rcases h.present size hsize e he with hsome | hold
          · exact hsome (hekey ▸ hnone)
          · have hopened : e.1 / size * size = now / size * size := congrArg BucketKey.opened hekey
            exact hnow.not_old (hopened ▸ hold)
        rw [hnil]
        exact summarises_create op
      · exact (h.summarises _ b hb).2.2.modify hmod
    · rcases hothers k hk with hsame | ⟨hnone, -⟩
      · obtain ⟨hs, hpos, hsum⟩ := h.summarises k c (hsame ▸ hc)
        refine ⟨hs, hpos, ?_⟩
        by_cases hseconds : k.seconds = size
        · subst hseconds
          rw [Function.update_self]
          simpa [fillsOf, Ne.symm hk] using hsum
        · rwa [Function.update_of_ne hseconds]
      · rw [hnone] at hc
        cases hc
  · by_cases hk : e.2.bucket e.1 s = op.bucket now size
    · exact .inl (by rw [hk, hn]; simp)
    · have he : e ∈ hist s := by
        by_cases hseconds : s = size
        · subst hseconds
          rw [Function.update_self, mem_append, mem_singleton] at he
          exact he.resolve_right fun heq => hk (by rw [heq])
        · rwa [Function.update_of_ne hseconds] at he
      rcases hothers _ hk with hsame | ⟨-, -, -, hold⟩
      · rw [hsame]
        exact h.present s hs e he
      · exact .inr hold

/-- The loop over the sizes takes in the fill for each size it has passed. -/
theorem Sound.loop (h : Sound cfg now (fun _ => H) B) {done : List Nat} (hnodup : done.Nodup)
    (hnow : ∀ size ∈ cfg.trackedBuckets, cfg.Covers now size)
    (hdone : ∀ size ∈ done, size ∈ cfg.trackedBuckets)
    (hr : done.foldlM (MarketHistory.record cfg now op) B = .ok C) :
    Sound cfg now (fun s => if s ∈ done then H ++ [(now, op)] else H) C := by
  induction done using reverseRecOn generalizing C with
  | nil =>
    cases hr
    simpa using h
  | append_singleton done size ih =>
    simp only [foldlM_append, foldlM_cons, foldlM_nil, Checked.bind_eq_ok] at hr
    obtain ⟨B', hr', _, hr, heq⟩ := hr
    cases heq
    rw [nodup_append_comm, singleton_append, nodup_cons] at hnodup
    have hsize := hdone size (by simp)
    convert (ih hnodup.2 (fun s hs => hdone s (by simp [hs])) hr').record (hnow size hsize) hsize hr
      using 2 with s
    by_cases hs : s = size
    · subst hs
      simp [hnodup.1]
    · simp [hs]

/-- The states after returned calls, at times that do not decrease and that the history covers. -/
inductive Reached (cfg : Config) : Nat → State → Prop
  | start : Reached cfg 0 ⟨.empty, []⟩
  | fill {last now : Nat} {op : FillOrder} {S S' : State} (h : Reached cfg last S)
      (hlast : last ≤ now) (hnow : ∀ size ∈ cfg.trackedBuckets, cfg.Covers now size)
      (hcall : onPostApplyOperation cfg now op S = .ok S') : Reached cfg now S'

variable {S : State}

/-- The handler keeps no buckets, or the index is sound for the whole history. -/
theorem Reached.sound (h : Reached cfg last S) (hnodup : cfg.trackedBuckets.Nodup) :
    if cfg.maximumHistoryTrackTime = 0 then S.buckets = .empty
    else Sound cfg last (fun _ => S.orderHistory) S.buckets := by
  induction h with
  | start =>
    split_ifs
    · rfl
    · exact ⟨Table.all_empty _, by simp⟩
  | @fill last now op S S' _ hlast hnow hcall ih =>
    unfold onPostApplyOperation at hcall
    split_ifs with htrack
    · rw [if_pos (Or.inl htrack)] at hcall
      rw [if_pos htrack] at ih
      cases hcall
      exact ih
    rw [if_neg htrack] at ih
    have ih := ih.mono hlast
    split_ifs at hcall with hnil
    · have hnil := hnil.resolve_left htrack
      cases hcall
      refine ⟨fun k b hb => ?_, by simp [hnil]⟩
      have hmem := (ih.summarises k b hb).1
      simp [hnil] at hmem
    · rw [Checked.bind_eq_ok] at hcall
      obtain ⟨B, hB, hS'⟩ := hcall
      cases hS'
      have hB := ih.loop hnodup hnow (fun _ h => h) hB
      refine ⟨fun k b hb => ?_, fun size hsize => ?_⟩
      · obtain ⟨hk, hpos, hsum⟩ := hB.summarises k b hb
        exact ⟨hk, hpos, by simpa [hk] using hsum⟩
      · simpa [hsize] using hB.present size hsize

/-- The fills of the market of a bucket in its range of time. -/
def State.fillsIn (S : State) (k : BucketKey) : List FillOrder :=
  (S.orderHistory.filter fun h => h.2.marketSymbol = k.symbol ∧ k.opened ≤ h.1 ∧
    h.1 < k.opened + k.seconds).map Prod.snd

/-- The fills of a bucket that is kept are all in the history. -/
theorem fillsOf_eq_fillsIn {k : BucketKey} (hk : k.seconds ≠ 0)
    (hne : fillsOf S.orderHistory k ≠ []) : fillsOf S.orderHistory k = S.fillsIn k := by
  obtain ⟨f, hf⟩ := exists_mem_of_ne_nil _ hne
  obtain ⟨e, he, rfl⟩ := mem_map.mp hf
  have hopened : e.1 / k.seconds * k.seconds = k.opened :=
    congrArg BucketKey.opened (of_decide_eq_true (mem_filter.mp he).2)
  obtain ⟨symbol, seconds, opened⟩ := k
  dsimp only at hk hopened
  rw [fillsOf, State.fillsIn]
  congr 2
  funext h
  simp only [FillOrder.bucket, decide_eq_decide, BucketKey.mk.injEq, true_and]
  refine and_congr_right fun _ => ⟨fun h' => ?_, fun h' => ?_⟩
  · have hdiv := Nat.div_add_mod' h.1 seconds
    have hlt := Nat.mod_lt h.1 (Nat.pos_of_ne_zero hk)
    omega
  · rw [← hopened] at h' ⊢
    rw [Nat.div_eq_of_lt_le h'.1 (by rw [Nat.succ_mul]; exact h'.2)]

/-- A fill of one dollar for a thousandth of a `freezone`. -/
def dollarFill : FillOrder where
  currentPays := ⟨1000, sbd⟩
  openPays := ⟨1, freezone⟩
  current_pos := by decide
  open_pos := Int.one_pos
  one_freezone := by decide

def defaults : Config := ⟨[21600, 3600, 300, 60, 15], 604800⟩

end Freezone.Plugins.MarketHistory
