import ExactNeighbors.Proofs.Index.History
import ExactNeighbors.Proofs.Storage.Layout

set_option autoImplicit false

/-! # The store of an index

An index reaches its store through writes only. So what holds of a store when it is created and is kept
by every write holds of the store of an index after any calls (`run_store`): it is one that can be
reached, and it keeps the block size of the settings. What an index says of its blocks follows from how
such a store is laid out (`blocks_filled_in_turn`). -/

namespace ExactNeighbors

namespace Index

/-- Adding a point is a write to the store, or nothing. -/
theorem store_add (i : Index) (point : Point) (label : Label) :
    (∃ e, i.add point label = .error e) ∨
      ∃ w i', i.add point label = .ok i' ∧ i'.store = (i.store.write w).2 := by
  cases hadd : i.add point label with
  | error e => exact Or.inl ⟨e, rfl⟩
  | ok i' =>
      obtain ⟨prepared, hprepare, h⟩ := bind_eq_ok.1 hadd
      refine Or.inr ?_
      split at h
      · next id hid =>
          obtain ⟨store, hstore, h⟩ := bind_eq_ok.1 h
          cases h
          exact ⟨.overwrite id prepared, _, rfl, by rw [Store.write_overwrite, hstore]⟩
      · obtain ⟨⟨id, store⟩, hstore, h⟩ := bind_eq_ok.1 h
        cases h
        exact ⟨.append prepared label, _, rfl, by rw [Store.write_append, hstore]⟩

/-- What every write keeps of a store, every run of calls keeps of the store of an index. -/
theorem run_store {P : Store → Prop} (kept : ∀ s w, P s → P (s.write w).2) {i : Index}
    (h : P i.store) (calls : List Row) : P (i.run calls).store := by
  induction calls generalizing i with
  | nil => exact h
  | cons call calls ih =>
      obtain ⟨label, point⟩ := call
      rcases i.store_add point label with ⟨e, hadd⟩ | ⟨w, i', hadd, hstore⟩
      · rw [run, hadd]
        exact ih h
      · have hwritten : P i'.store := hstore ▸ kept i.store w h
        rw [run, hadd]
        exact ih hwritten

variable {machine : Machine} {settings : Settings} {i₀ : Index}

/-- The store of an index that can be reached is one that can be reached. -/
theorem reachable_store_run (created : create machine settings = .ok i₀) (calls : List Row) :
    (i₀.run calls).store.Reachable :=
  run_store (fun _ w h => h.written w) (.created (store_created created).2) calls

theorem blockSize_run (created : create machine settings = .ok i₀) (calls : List Row) :
    (i₀.run calls).store.blockSize = settings.blockSize.toNat := by
  have hcreated := (Store.holds_of_create (store_created created).2).2.2
  have hkept (s : Store) (w : Write) (h : s.blockSize = settings.blockSize.toNat) :
      (s.write w).2.blockSize = settings.blockSize.toNat :=
    (s.sizes_write w).2.trans h
  exact run_store hkept hcreated calls

end Index

/-- **Blocks are filled in turn.** In every store that can be reached, each block may hold as many rows
    as the block size says and has the components of its rows; all blocks but the last are full and
    the last holds a row at least. So there are as many blocks as the rows need, and a row is only
    ever added to a block with room. An index has such a store after any calls, in either mode, and
    reports its blocks accordingly. -/
theorem blocks_filled_in_turn :
    (∀ s : Store, s.Reachable → s.Layout ∧
      ∀ point label, ∃ b, s.roomyBlocks.back? = some b ∧ b.isFull = false ∧
        (s.push point label).blocks.back? = some (b.push label point)) ∧
    ∀ (machine : Machine) (settings : Settings) (i₀ : Index),
      Index.create machine settings = .ok i₀ → ∀ calls,
      let info := (i₀.run calls).info
      info.blockSize = settings.blockSize.toNat ∧
        info.blockCount = info.size ⌈/⌉ info.blockSize := by
  constructor
  · intro s reachable
    obtain ⟨rows, hrows⟩ := reachable.holds
    exact ⟨hrows.layout, hrows.push_roomy⟩
  · intro machine settings i₀ created calls
    obtain ⟨rows, hrows⟩ := (Index.reachable_store_run created calls).holds
    exact ⟨Index.blockSize_run created calls, hrows.layout.blockCount⟩

/-- Blocks of two. Three rows take two blocks, and room for a fourth is left when the first is
    overwritten. An index to which a label is added twice has three points or four, in two blocks
    either way. -/
theorem blocks_filled_in_turn_three :
    let calls : List Row := [(7, [.zero false]), (8, [.one]), (9, [.one]), (7, [.one])]
    (∃ s : Store, s.Reachable ∧ s.count = 3 ∧ s.Layout ∧
      ∃ b, s.roomyBlocks.back? = some b ∧ b.isFull = false ∧
        (s.push [.one] 7).blocks.back? = some (b.push 7 [.one])) ∧
    (∃ i₀, Index.create .small { dimension := 1, blockSize := 2 } = .ok i₀ ∧
      (i₀.run calls).info.size = 3 ∧ (i₀.run calls).info.blockCount = 2) ∧
    ∃ i₀, Index.create .small { dimension := 1, blockSize := 2, mode := .multi } = .ok i₀ ∧
      (i₀.run calls).info.size = 4 ∧ (i₀.run calls).info.blockCount = 2 := by
  intro calls
  obtain ⟨hstore, hindex⟩ := blocks_filled_in_turn
  refine ⟨?_, ?_, ?_⟩
  · obtain ⟨s₀, created⟩ : ∃ s₀, Store.create 1 2 0 = .ok s₀ := ⟨_, rfl⟩
    have hlast := ((((Store.Reachable.created created).written (.append [.zero false] 7)).written
      (.append [.one] 8)).written (.append [.one] 9)).written (.overwrite 0 [.one])
    obtain ⟨hlayout, hpush⟩ := hstore _ hlast
    refine ⟨_, hlast, ?_, hlayout, hpush [.one] 7⟩
    cases created
    rfl
  · obtain ⟨i₀, created⟩ : ∃ i₀, Index.create .small { dimension := 1, blockSize := 2 } = .ok i₀ :=
      ⟨_, rfl⟩
    obtain ⟨hblockSize, hblockCount⟩ := hindex _ _ i₀ created calls
    have hsize : (i₀.run calls).info.size = 3 := by
      cases created
      decide +kernel
    refine ⟨i₀, created, hsize, ?_⟩
    rw [hblockCount, hblockSize, hsize]
    rfl
  · obtain ⟨i₀, created⟩ : ∃ i₀,
      Index.create .small { dimension := 1, blockSize := 2, mode := .multi } = .ok i₀ := ⟨_, rfl⟩
    obtain ⟨hblockSize, hblockCount⟩ := hindex _ _ i₀ created calls
    have hsize : (i₀.run calls).info.size = 4 := by
      cases created
      decide +kernel
    refine ⟨i₀, created, hsize, ?_⟩
    rw [hblockCount, hblockSize, hsize]
    rfl

end ExactNeighbors
