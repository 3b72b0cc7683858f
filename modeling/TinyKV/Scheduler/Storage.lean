import TinyKV.BigEndian
import TinyKV.Scheduler.Store

/-!
# The stores in the storage

`SaveStore`, `SaveStoreWeight` and `LoadStores` of `scheduler/server/core/storage.go`, over an
ordered map of strings, as `scheduler/server/kv/mem_kv.go` is.
-/

namespace TinyKV

open List

def ascii (s : List Char) : Bytes := s.map fun c => UInt8.ofNat c.toNat

structure KvBase where
  pairs : List (Bytes × Bytes)
  sorted : OrderedList.Sorted Prod.fst pairs

namespace KvBase

variable {b : KvBase} {key key' value : Bytes}

def load (b : KvBase) (key : Bytes) : Bytes :=
  match OrderedList.lookup Prod.fst key b.pairs with
  | none => []
  | some item => item.2

def loadRange (b : KvBase) (key endKey : Bytes) (limit : ℕ) : List (Bytes × Bytes) :=
  (b.pairs.filter fun item => key ≤ item.1 ∧ item.1 < endKey).take limit

def save (b : KvBase) (key value : Bytes) : KvBase :=
  ⟨OrderedList.replaceOrInsert Prod.fst (key, value) b.pairs, b.sorted.replaceOrInsert⟩

theorem load_eq_of_mem (h : (key, value) ∈ b.pairs) : b.load key = value := by
  have hlookup : OrderedList.lookup Prod.fst key b.pairs = some (key, value) :=
    b.sorted.lookup_eq_some.mpr ⟨h, rfl⟩
  rw [load, hlookup]

theorem load_save_self : (b.save key value).load key = value :=
  load_eq_of_mem (OrderedList.mem_replaceOrInsert.mpr (Or.inl rfl))

theorem load_save_of_ne (h : key' ≠ key) : (b.save key value).load key' = b.load key' := by
  have hlookup : OrderedList.lookup Prod.fst key' (b.save key value).pairs =
      OrderedList.lookup Prod.fst key' b.pairs := by
    apply Option.ext
    intro item
    rw [(b.save key value).sorted.lookup_eq_some, b.sorted.lookup_eq_some]
    unfold save
    rw [OrderedList.mem_replaceOrInsert]
    constructor
    · rintro ⟨rfl | ⟨hmem, -⟩, hkey⟩
      · exact absurd hkey.symm h
      · exact ⟨hmem, hkey⟩
    · rintro ⟨hmem, rfl⟩
      exact ⟨Or.inr ⟨hmem, h⟩, rfl⟩
  rw [load, load, hlookup]

theorem filter_save (b : KvBase) (key value : Bytes) (p : Bytes → Bool) :
    (b.save key value).pairs.filter (fun item => p item.1) =
      if p key then OrderedList.replaceOrInsert Prod.fst (key, value)
        (b.pairs.filter fun item => p item.1)
      else b.pairs.filter fun item => p item.1 := by
  refine OrderedList.Sorted.ext ((b.save key value).sorted.filter _) ?_ ?_
  · split_ifs
    · exact OrderedList.Sorted.replaceOrInsert (b.sorted.filter _)
    · exact b.sorted.filter _
  · intro item
    unfold save
    split_ifs with hp
    · simp only [mem_filter, OrderedList.mem_replaceOrInsert]
      constructor
      · rintro ⟨rfl | ⟨hmem, hne⟩, hitem⟩
        · exact Or.inl rfl
        · exact Or.inr ⟨⟨hmem, hitem⟩, hne⟩
      · rintro (rfl | ⟨⟨hmem, hitem⟩, hne⟩)
        · exact ⟨Or.inl rfl, hp⟩
        · exact ⟨Or.inr ⟨hmem, hne⟩, hitem⟩
    · simp only [mem_filter, OrderedList.mem_replaceOrInsert]
      constructor
      · rintro ⟨rfl | ⟨hmem, -⟩, hitem⟩
        · exact absurd hitem hp
        · exact ⟨hmem, hitem⟩
      · rintro ⟨hmem, hitem⟩
        refine ⟨Or.inr ⟨hmem, ?_⟩, hitem⟩
        rintro heq
        rw [heq] at hitem
        exact hp hitem

end KvBase

def storeDir : Bytes := ascii ['r', 'a', 'f', 't', '/', 's', '/']

def storePath (storeID : UInt64) : Bytes := storeDir ++ Radix.decimal storeID

def weightDir : Bytes :=
  ascii ['s', 'c', 'h', 'e', 'd', 'u', 'l', 'e', '/', 's', 't', 'o', 'r', 'e', '_', 'w', 'e', 'i',
    'g', 'h', 't', '/']

def storeLeaderWeightPath (storeID : UInt64) : Bytes :=
  weightDir ++ Radix.decimal storeID ++ ascii ['/', 'l', 'e', 'a', 'd', 'e', 'r']

def storeRegionWeightPath (storeID : UInt64) : Bytes :=
  weightDir ++ Radix.decimal storeID ++ ascii ['/', 'r', 'e', 'g', 'i', 'o', 'n']

variable {id id' : UInt64}

theorem storePath_lt_storePath : storePath id < storePath id' ↔ id < id' := by
  rw [storePath, storePath, append_lt_append_left_iff, Radix.decimal_lt_decimal]

theorem storePath_le_storePath : storePath id ≤ storePath id' ↔ id ≤ id' := by
  rw [← not_lt, storePath_lt_storePath, UInt64.not_lt]

theorem isPrefix_of_between_storePath {key : Bytes} (hlo : storePath id ≤ key)
    (hhi : key < storePath id') : storeDir <+: key :=
  isPrefix_of_le_of_le hlo hhi.le

theorem not_isPrefix_weightDir (rest : Bytes) : ¬ storeDir <+: weightDir ++ rest := by
  rintro ⟨c, hc⟩
  simp [storeDir, weightDir, ascii] at hc

structure MetaStore where
  id : UInt64
  address : Bytes := []
  state : StoreState := .up
deriving DecidableEq, Repr

structure Encoding (W : Type) where
  marshal : MetaStore → Bytes
  unmarshal : Bytes → Option MetaStore
  unmarshal_marshal : ∀ store, unmarshal (marshal store) = some store
  formatFloat : W → Bytes
  parseFloat : Bytes → Option W
  parseFloat_formatFloat : ∀ w, parseFloat (formatFloat w) = some w
  parseFloat_nil : parseFloat [] = none
  one : W

structure SavedStore (W : Type) where
  metaStore : MetaStore
  leaderWeight : W
  regionWeight : W
deriving DecidableEq, Repr

inductive LoadStoresError
  | unmarshal (value : Bytes)
  | parseFloat (path : Bytes)
deriving DecidableEq, Repr

def minKVRangeLimit : ℕ := 100

def maxUint64 : UInt64 := 18446744073709551615

namespace Encoding

variable {W σ : Type}

def saveStore (e : Encoding W) (b : KvBase) (store : MetaStore) : KvBase :=
  b.save (storePath store.id) (e.marshal store)

def loadFloatWithDefaultValue (e : Encoding W) (b : KvBase) (path : Bytes) (default : W) :
    Option W :=
  if b.load path = [] then some default else e.parseFloat (b.load path)

def loadStore (e : Encoding W) (b : KvBase) (f : σ → SavedStore W → σ) (st : UInt64 × σ)
    (str : Bytes) : Except (LoadStoresError × σ) (UInt64 × σ) :=
  match e.unmarshal str with
  | none => .error (.unmarshal str, st.2)
  | some store =>
    match e.loadFloatWithDefaultValue b (storeLeaderWeightPath store.id) e.one with
    | none => .error (.parseFloat (storeLeaderWeightPath store.id), st.2)
    | some leaderWeight =>
      match e.loadFloatWithDefaultValue b (storeRegionWeightPath store.id) e.one with
      | none => .error (.parseFloat (storeRegionWeightPath store.id), st.2)
      | some regionWeight => .ok (store.id + 1, f st.2 ⟨store, leaderWeight, regionWeight⟩)

def loadStoresLoop (e : Encoding W) (b : KvBase) (f : σ → SavedStore W → σ) :
    ℕ → UInt64 × σ → Option (Except (LoadStoresError × σ) σ)
  | 0, _ => none
  | rounds + 1, st =>
    let res := (b.loadRange (storePath st.1) (storePath maxUint64) minKVRangeLimit).map Prod.snd
    match res.foldlM (e.loadStore b f) st with
    | .error err => some (.error err)
    | .ok st =>
      if res.length < minKVRangeLimit then some (.ok st.2) else e.loadStoresLoop b f rounds st

def loadStores (e : Encoding W) (rounds : ℕ) (b : KvBase) (f : σ → SavedStore W → σ) (s : σ) :
    Option (Except (LoadStoresError × σ) σ) :=
  e.loadStoresLoop b f rounds (0, s)

def weightAt (e : Encoding W) (b : KvBase) (path : Bytes) : W :=
  (e.loadFloatWithDefaultValue b path e.one).getD e.one

def saved (e : Encoding W) (b : KvBase) (store : MetaStore) : SavedStore W where
  metaStore := store
  leaderWeight := e.weightAt b (storeLeaderWeightPath store.id)
  regionWeight := e.weightAt b (storeRegionWeightPath store.id)

def Parseable (e : Encoding W) (b : KvBase) (id : UInt64) : Prop :=
  ∀ path ∈ [storeLeaderWeightPath id, storeRegionWeightPath id],
    e.loadFloatWithDefaultValue b path e.one ≠ none

/-- The stores that are saved are those of the list. -/
structure Holds (e : Encoding W) (b : KvBase) (stores : List MetaStore) : Prop where
  pairs_eq : b.pairs.filter (fun item => storeDir <+: item.1) =
    stores.map fun store => (storePath store.id, e.marshal store)
  sorted : OrderedList.Sorted (fun store : MetaStore => store.id.toNat) stores

variable {e : Encoding W} {b : KvBase} {stores : List MetaStore} {store : MetaStore}
  {f : σ → SavedStore W → σ}

theorem Holds.saveStore (h : e.Holds b stores) (store : MetaStore) :
    e.Holds (e.saveStore b store)
      (OrderedList.replaceOrInsert (fun store => store.id.toNat) store stores) := by
  have hdir : storeDir <+: storePath store.id := prefix_append _ _
  have hlt : ∀ s t : MetaStore, storePath s.id < storePath t.id ↔ s.id.toNat < t.id.toNat := by
    intro s t
    rw [storePath_lt_storePath, UInt64.lt_iff_toNat_lt]
  refine ⟨?_, h.sorted.replaceOrInsert⟩
  have hfilter := b.filter_save (storePath store.id) (e.marshal store)
    fun key => decide (storeDir <+: key)
  rw [if_pos (decide_eq_true hdir), h.pairs_eq] at hfilter
  refine hfilter.trans ?_
  unfold OrderedList.replaceOrInsert
  rw [map_append, map_cons, filter_map, filter_map]
  simp only [Function.comp_def, hlt]

theorem Holds.save (h : e.Holds b stores) {key : Bytes} (hkey : ¬ storeDir <+: key)
    (value : Bytes) : e.Holds (b.save key value) stores := by
  refine ⟨?_, h.sorted⟩
  have hfilter := b.filter_save key value fun key => decide (storeDir <+: key)
  rw [if_neg (by simpa using hkey)] at hfilter
  exact hfilter.trans h.pairs_eq

theorem Holds.loadRange_eq (h : e.Holds b stores) (hmax : ∀ store ∈ stores, store.id < maxUint64)
    (id : UInt64) (limit : ℕ) :
    b.loadRange (storePath id) (storePath maxUint64) limit =
      ((stores.filter fun store => id ≤ store.id).take limit).map
        fun store => (storePath store.id, e.marshal store) := by
  have hfilter : b.pairs.filter (fun item => storePath id ≤ item.1 ∧ item.1 < storePath maxUint64) =
      (b.pairs.filter fun item => storeDir <+: item.1).filter
        fun item => storePath id ≤ item.1 ∧ item.1 < storePath maxUint64 := by
    rw [filter_filter]
    refine filter_congr fun item _ => ?_
    by_cases hitem : storePath id ≤ item.1 ∧ item.1 < storePath maxUint64
    · simp [hitem, isPrefix_of_between_storePath hitem.1 hitem.2]
    · simp [hitem]
  rw [KvBase.loadRange, hfilter, h.pairs_eq, filter_map, ← map_take]
  congr 2
  refine filter_congr fun store hstore => ?_
  simp [storePath_le_storePath, storePath_lt_storePath, hmax store hstore]

theorem loadStore_marshal (h : e.Parseable b store.id) (st : UInt64 × σ) :
    e.loadStore b f st (e.marshal store) = .ok (store.id + 1, f st.2 (e.saved b store)) := by
  obtain ⟨leaderWeight, hleader⟩ := Option.ne_none_iff_exists'.mp (h _ mem_cons_self)
  obtain ⟨regionWeight, hregion⟩ := Option.ne_none_iff_exists'.mp
    (h _ (mem_cons_of_mem _ mem_cons_self))
  simp only [loadStore, e.unmarshal_marshal, hleader, hregion, saved, weightAt, Option.getD_some]

theorem foldlM_loadStore (h : ∀ store ∈ stores, e.Parseable b store.id) (st : UInt64 × σ) :
    (stores.map e.marshal).foldlM (e.loadStore b f) st =
      .ok (stores.foldl (fun _ store => store.id + 1) st.1,
        (stores.map (e.saved b)).foldl f st.2) := by
  induction stores generalizing st with
  | nil => rfl
  | cons store stores ih =>
    rw [map_cons, foldlM_cons, loadStore_marshal (h store mem_cons_self)]
    exact ih (fun store hstore => h store (mem_cons_of_mem _ hstore)) _

theorem filter_after_page (hsorted : OrderedList.Sorted (fun store => store.id.toNat) stores)
    {id : UInt64} {front tail : List MetaStore} {last : MetaStore} (hlast : last.id < maxUint64)
    (hrest : stores.filter (fun store => id ≤ store.id) = front ++ last :: tail) :
    stores.filter (fun store => last.id + 1 ≤ store.id) = tail := by
  have hmax : maxUint64.toNat = 2^64 - 1 := rfl
  have hle : ∀ x : UInt64, last.id + 1 ≤ x ↔ last.id.toNat < x.toNat := by
    intro x
    rw [UInt64.lt_iff_toNat_lt] at hlast
    rw [UInt64.le_iff_toNat_le, UInt64.toNat_add, UInt64.toNat_one, Nat.mod_eq_of_lt (by omega)]
    omega
  have hid : id.toNat ≤ last.id.toNat := by
    have hmem : last ∈ stores.filter fun store => id ≤ store.id := by simp [hrest]
    exact UInt64.le_iff_toNat_le.mp (by simpa using (mem_filter.mp hmem).2)
  have hparts := hsorted.filter fun store => decide (id ≤ store.id)
  rw [hrest] at hparts
  obtain ⟨-, htail, hfront⟩ := pairwise_append.mp hparts
  calc stores.filter (fun store => last.id + 1 ≤ store.id)
      = (stores.filter fun store => id ≤ store.id).filter fun store => last.id + 1 ≤ store.id := by
        rw [filter_filter]
        refine filter_congr fun store _ => ?_
        simp only [hle, UInt64.le_iff_toNat_le, ← Bool.decide_and, decide_eq_decide]
        omega
    _ = tail := by
        rw [hrest, filter_append, filter_cons_of_neg (by simp [hle]),
          filter_eq_nil_iff.mpr ?_, filter_eq_self.mpr ?_, nil_append]
        · intro store hstore
          simpa [hle] using rel_of_pairwise_cons htail hstore
        · intro store hstore
          simpa [hle] using (hfront store hstore last mem_cons_self).le

section

variable (h : e.Holds b stores) (hmax : ∀ store ∈ stores, store.id < maxUint64)
  (hparse : ∀ store ∈ stores, e.Parseable b store.id)
include h hmax hparse

theorem Holds.loadStoresLoop_eq (rounds : ℕ) (st : UInt64 × σ)
    (hrounds : (stores.filter fun store => st.1 ≤ store.id).length < minKVRangeLimit * rounds) :
    e.loadStoresLoop b f rounds st =
      some (.ok (((stores.filter fun store => st.1 ≤ store.id).map (e.saved b)).foldl f st.2)) := by
  induction rounds generalizing st with
  | zero => simp at hrounds
  | succ rounds ih =>
    obtain ⟨rest, hrest⟩ : ∃ rest, rest = stores.filter fun store => st.1 ≤ store.id := ⟨_, rfl⟩
    rw [← hrest] at hrounds ⊢
    have hmem : ∀ store ∈ rest, store ∈ stores := by
      intro store hstore
      rw [hrest] at hstore
      exact mem_of_mem_filter hstore
    have hpage : (b.loadRange (storePath st.1) (storePath maxUint64) minKVRangeLimit).map Prod.snd =
        (rest.take minKVRangeLimit).map e.marshal := by
      rw [h.loadRange_eq hmax, ← hrest, map_map]
      rfl
    unfold loadStoresLoop
    rw [hpage]
    dsimp only
    rw [foldlM_loadStore fun store hstore => hparse store
      (hmem store (mem_of_mem_take hstore))]
    simp only [length_map, length_take]
    by_cases hfull : min minKVRangeLimit rest.length < minKVRangeLimit
    · rw [if_pos hfull, take_of_length_le (by omega)]
    · -- The next page starts after the last store of this one.
      rw [if_neg hfull]
      have hne : rest.take minKVRangeLimit ≠ [] := by
        intro hnil
        have := congrArg List.length hnil
        rw [length_take, length_nil] at this
        simp only [minKVRangeLimit] at hfull this
        omega
      obtain ⟨front, last, hsplit⟩ : ∃ front last, rest.take minKVRangeLimit = front ++ [last] :=
        ⟨_, _, (dropLast_append_getLast hne).symm⟩
      have hdecomp : rest = front ++ last :: rest.drop minKVRangeLimit := by
        conv_lhs => rw [← take_append_drop minKVRangeLimit rest, hsplit]
        simp
      have hlast : last ∈ stores := hmem last (by rw [hdecomp]; simp)
      have hnext := filter_after_page h.sorted (hmax last hlast) (hrest.symm.trans hdecomp)
      rw [hsplit, foldl_append, foldl_cons, foldl_nil, ih _ ?_]
      · dsimp only
        rw [hnext, ← foldl_append, ← map_append, ← hsplit, take_append_drop]
      · dsimp only
        rw [hnext, length_drop]
        rw [Nat.mul_succ] at hrounds
        omega

theorem Holds.loadStores_eq {rounds : ℕ} (hrounds : stores.length / minKVRangeLimit < rounds)
    (s : σ) : e.loadStores rounds b f s = some (.ok ((stores.map (e.saved b)).foldl f s)) := by
  have hall : (stores.filter fun store => (0 : UInt64) ≤ store.id) = stores :=
    filter_eq_self.mpr fun store _ => by simp
  have hlength : stores.length < minKVRangeLimit * rounds := by
    rw [Nat.mul_comm]
    exact (Nat.div_lt_iff_lt_mul (by decide)).mp hrounds
  have hloop := h.loadStoresLoop_eq (f := f) hmax hparse rounds (0, s) (by rwa [hall])
  rwa [hall] at hloop

end

theorem holds_foldl_saveStore (hbase : ∀ item ∈ b.pairs, ¬ storeDir <+: item.1)
    (stores : List MetaStore) :
    e.Holds (stores.foldl e.saveStore b) (stores.foldl
      (fun l store => OrderedList.replaceOrInsert (fun store => store.id.toNat) store l) []) := by
  induction stores using List.reverseRecOn with
  | nil =>
    refine ⟨?_, OrderedList.sorted_nil⟩
    simpa using hbase
  | append_singleton stores store ih =>
    rw [foldl_append, foldl_append]
    exact ih.saveStore store

theorem load_foldl_saveStore (stores : List MetaStore) {path : Bytes}
    (hpath : ¬ storeDir <+: path) : (stores.foldl e.saveStore b).load path = b.load path := by
  induction stores generalizing b with
  | nil => rfl
  | cons store stores ih =>
    rw [foldl_cons, ih, saveStore, KvBase.load_save_of_ne]
    rintro rfl
    exact hpath (prefix_append _ _)

theorem not_isPrefix_of_mem {id : UInt64} {path : Bytes}
    (hpath : path ∈ [storeLeaderWeightPath id, storeRegionWeightPath id]) :
    ¬ storeDir <+: path := by
  have hdir : ∃ rest, path = weightDir ++ rest := by
    rcases mem_pair.mp hpath with rfl | rfl
    · exact ⟨_, append_assoc ..⟩
    · exact ⟨_, append_assoc ..⟩
  obtain ⟨rest, rfl⟩ := hdir
  exact not_isPrefix_weightDir rest

theorem parseable_foldl_saveStore (stores : List MetaStore) {id : UInt64} :
    e.Parseable (stores.foldl e.saveStore b) id ↔ e.Parseable b id := by
  unfold Parseable loadFloatWithDefaultValue
  refine forall₂_congr fun path hpath => ?_
  rw [load_foldl_saveStore stores (not_isPrefix_of_mem hpath)]

def LastSaved (stores : List MetaStore) (store : MetaStore) : Prop :=
  ∃ before after, stores = before ++ store :: after ∧ ∀ s ∈ after, s.id ≠ store.id

/-- Loading is complete: whatever else is in the storage, the callback is called once for each store
that is saved, in the order of the ids. -/
theorem loadStores_complete (e : Encoding W) (base : KvBase) (stores : List MetaStore)
    (hbase : ∀ item ∈ base.pairs, ¬ storeDir <+: item.1)
    (hmax : ∀ store ∈ stores, store.id < maxUint64)
    (hparse : ∀ store ∈ stores, e.Parseable (stores.foldl e.saveStore base) store.id) :
    ∃ loaded : List MetaStore,
      loaded.Pairwise (fun store store' => store.id < store'.id) ∧
      (∀ store, store ∈ loaded ↔ LastSaved stores store) ∧
      ∀ (σ : Type) (f : σ → SavedStore W → σ) (s : σ) (rounds : ℕ),
        loaded.length / minKVRangeLimit < rounds →
        e.loadStores rounds (stores.foldl e.saveStore base) f s =
          some (.ok ((loaded.map (e.saved (stores.foldl e.saveStore base))).foldl f s)) := by
  have hholds := holds_foldl_saveStore (e := e) hbase stores
  have hmem : ∀ store, store ∈ stores.foldl
      (fun l store => OrderedList.replaceOrInsert (fun store => store.id.toNat) store l) [] ↔
        LastSaved stores store := by
    intro store
    rw [OrderedList.mem_foldl_replaceOrInsert]
    simp only [LastSaved, ne_eq, UInt64.toNat_inj]
  have hsaved : ∀ store, LastSaved stores store → store ∈ stores := by
    rintro store ⟨before, after, rfl, -⟩
    simp
  refine ⟨_, hholds.sorted.imp UInt64.lt_iff_toNat_lt.mpr, hmem, fun σ f s rounds hrounds => ?_⟩
  have hstored := fun store hstore => hsaved store ((hmem store).mp hstore)
  exact hholds.loadStores_eq (fun store hstore => hmax store (hstored store hstore))
    (fun store hstore => hparse store (hstored store hstore)) hrounds s

def byteEncoding : Encoding UInt8 where
  marshal store :=
    (match store.state with | .up => 0 | .offline => 1 | .tombstone => 2) ::
      BigEndian.bytes 8 store.id.toNat ++ store.address
  unmarshal
    | [] => none
    | state :: rest => some
      { id := UInt64.ofNat (BigEndian.value (rest.take 8)), address := rest.drop 8,
        state := if state = 0 then .up else if state = 1 then .offline else .tombstone }
  unmarshal_marshal store := by
    obtain ⟨id, address, state⟩ := store
    have hid : BigEndian.value (BigEndian.bytes 8 id.toNat) = id.toNat :=
      BigEndian.value_bytes id.toNat_lt
    simp only [cons_append, take_left' (BigEndian.length_bytes 8 _),
      drop_left' (BigEndian.length_bytes 8 _), hid, UInt64.ofNat_toNat]
    cases state <;> rfl
  formatFloat w := [w]
  parseFloat
    | [w] => some w
    | _ => none
  parseFloat_formatFloat _ := rfl
  parseFloat_nil := rfl
  one := 1

def weightBase : KvBase where
  pairs := [(storeLeaderWeightPath 1, [7])]
  sorted := pairwise_singleton _ _

theorem loadStores_complete_two :
    let stores : List MetaStore := [{ id := 2 }, { id := 1, address := [5] }]
    ∃ loaded : List MetaStore,
      loaded.Pairwise (fun store store' => store.id < store'.id) ∧
      (∀ store, store ∈ loaded ↔ LastSaved stores store) ∧
      ∀ (σ : Type) (f : σ → SavedStore UInt8 → σ) (s : σ) (rounds : ℕ),
        loaded.length / minKVRangeLimit < rounds →
        byteEncoding.loadStores rounds (stores.foldl byteEncoding.saveStore weightBase) f s =
          some (.ok ((loaded.map
            (byteEncoding.saved (stores.foldl byteEncoding.saveStore weightBase))).foldl f s)) :=
  loadStores_complete byteEncoding weightBase [{ id := 2 }, { id := 1, address := [5] }]
    (by decide) (by decide) fun store hstore => (parseable_foldl_saveStore _).mpr (by
      rcases mem_pair.mp hstore with rfl | rfl
      all_goals
        unfold Parseable
        decide +kernel)

end Encoding

end TinyKV
