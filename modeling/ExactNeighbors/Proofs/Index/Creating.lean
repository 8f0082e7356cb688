import ExactNeighbors.Index.Basic
import ExactNeighbors.Proofs.Storage.Layout

set_option autoImplicit false

/-! # Which settings work

Settings are checked before an index is created from them, and a store checks its sizes once more. The
two checks are the same but for the number of threads and for how they word that a block would be too
large: both begin with one check of the two sizes (`checkSizes`). A check of a product is easily got
wrong, as a product that wraps around may look small. Here the sizes that pass are those whose exact
product can be addressed (`checkSizes_eq_ok_iff`), and settings that pass never fail later
(`checks_agree`). -/

namespace ExactNeighbors

/-! ## Kinds of errors -/

/-- What kind of error it is, without what it says. -/
inductive Error.Kind where
  | dimensionMismatch
  | invalidArgument
  | invalidConfig
  | malformedJson
  | unreadableFile
deriving DecidableEq

def Error.kind : Error → Error.Kind
  | .dimensionMismatch .. => .dimensionMismatch
  | .invalidArgument _ => .invalidArgument
  | .invalidConfig _ => .invalidConfig
  | .malformedJson => .malformedJson
  | .unreadableFile => .unreadableFile

/-! ## The two sizes -/

/-- The check of the two sizes. What is said of a block that would be too large is up to who asks. -/
def checkSizes (dimension blockSize : Nat) (tooLarge : SettingsFault) : Except Error Unit :=
  if dimension = 0 then .error (.invalidArgument .zeroDimension)
  else if blockSize = 0 then .error (.invalidConfig .zeroBlockSize)
  else if (Block.bytes? dimension blockSize).isNone then .error (.invalidConfig tooLarge)
  else .ok ()

/-- Points have components, blocks have rows, and the bytes of a full block can be addressed. -/
def SizesFit (dimension blockSize : Nat) : Prop :=
  1 ≤ dimension ∧ 1 ≤ blockSize ∧ 4 * dimension * blockSize ≤ 2 ^ 63 - 1

section Sizes

variable {dimension blockSize : Nat}

theorem isNone_bytes?_iff :
    (Block.bytes? dimension blockSize).isNone = true ↔
      ¬ 4 * dimension * blockSize ≤ 2 ^ 63 - 1 := by
  have hbytes : 4 * dimension * blockSize = dimension * blockSize * Size.component := by
    rw [Nat.mul_assoc, Nat.mul_comm]
    rfl
  have hlimit : Size.addressable = 2 ^ 63 - 1 := rfl
  rw [hbytes, ← hlimit, ← Block.isSome_bytes?_iff]
  cases Block.bytes? dimension blockSize <;> simp

theorem checkSizes_eq_ok_iff {tooLarge : SettingsFault} :
    checkSizes dimension blockSize tooLarge = .ok () ↔ SizesFit dimension blockSize := by
  unfold checkSizes SizesFit
  simp only [isNone_bytes?_iff]
  constructor
  · intro h
    split at h
    · cases h
    · split at h
      · cases h
      · split at h
        · cases h
        · next hdimension hblockSize hbytes =>
            exact ⟨Nat.pos_of_ne_zero hdimension, Nat.pos_of_ne_zero hblockSize,
              not_not.1 hbytes⟩
  · rintro ⟨hdimension, hblockSize, hbytes⟩
    rw [if_neg (Nat.ne_of_gt hdimension), if_neg (Nat.ne_of_gt hblockSize),
      if_neg (not_not.2 hbytes)]

/-- Whoever asks is told of the same kind of fault. -/
theorem exists_kind_eq_of_checkSizes {tooLarge : SettingsFault} {e : Error}
    (h : checkSizes dimension blockSize tooLarge = .error e) (tooLarge' : SettingsFault) :
    ∃ e', checkSizes dimension blockSize tooLarge' = .error e' ∧ e.kind = e'.kind := by
  unfold checkSizes at h ⊢
  split at h
  · next hdimension =>
      rw [if_pos hdimension]
      exact ⟨e, h, rfl⟩
  · next hdimension =>
      rw [if_neg hdimension]
      split at h
      · next hblockSize =>
          rw [if_pos hblockSize]
          exact ⟨e, h, rfl⟩
      · next hblockSize =>
          rw [if_neg hblockSize]
          split at h
          · next hbytes =>
              rw [if_pos hbytes]
              cases h
              exact ⟨_, rfl, rfl⟩
          · cases h

/-! ## The two checks -/

theorem Settings.check_eq (settings : Settings) :
    settings.check =
      (checkSizes settings.dimension.toNat settings.blockSize.toNat
        (.blockTooLarge settings.blockSize.toNat settings.dimension.toNat) >>= fun _ =>
      if settings.numThreads = some 0 then .error (.invalidConfig .zeroThreads) else .ok ()) := by
  simp only [check, checkSizes]
  split
  · rfl
  · split
    · rfl
    · split <;> rfl

theorem Store.create_eq (dimension blockSize expected : Nat) :
    ∃ s, create dimension blockSize expected =
      (checkSizes dimension blockSize (.blockNotAddressable blockSize dimension) >>= fun _ =>
      .ok s) := by
  refine ⟨⟨dimension, blockSize, #[], 0, ∅⟩, ?_⟩
  simp only [create, checkSizes]
  split
  · rfl
  · split
    · rfl
    · split <;> rfl

theorem Settings.check_eq_ok_iff {settings : Settings} :
    settings.check = .ok () ↔
      SizesFit settings.dimension.toNat settings.blockSize.toNat ∧
        settings.numThreads ≠ some 0 := by
  rw [check_eq, bind_eq_ok]
  constructor
  · rintro ⟨⟨⟩, hsizes, hthreads⟩
    split at hthreads
    · cases hthreads
    · next hne => exact ⟨checkSizes_eq_ok_iff.1 hsizes, hne⟩
  · rintro ⟨hsizes, hthreads⟩
    exact ⟨(), checkSizes_eq_ok_iff.2 hsizes, if_neg hthreads⟩

theorem Store.exists_create_eq_ok_iff {expected : Nat} :
    (∃ s, create dimension blockSize expected = .ok s) ↔ SizesFit dimension blockSize := by
  obtain ⟨s, hcreate⟩ := create_eq dimension blockSize expected
  simp only [hcreate, bind_eq_ok]
  constructor
  · rintro ⟨_, ⟨⟩, hsizes, -⟩
    exact checkSizes_eq_ok_iff.1 hsizes
  · intro hfit
    exact ⟨s, (), checkSizes_eq_ok_iff.2 hfit, rfl⟩

/-- Sizes that do not fit are refused by either check, for the same kind of reason. -/
theorem exists_errors_of_not_sizesFit {settings : Settings} (expected : Nat)
    (h : ¬ SizesFit settings.dimension.toNat settings.blockSize.toNat) :
    ∃ e e', settings.check = .error e ∧
      Store.create settings.dimension.toNat settings.blockSize.toNat expected = .error e' ∧
      e.kind = e'.kind := by
  obtain ⟨s, hcreate⟩ :=
    Store.create_eq settings.dimension.toNat settings.blockSize.toNat expected
  rw [settings.check_eq, hcreate]
  cases hsizes : checkSizes settings.dimension.toNat settings.blockSize.toNat
      (.blockTooLarge settings.blockSize.toNat settings.dimension.toNat) with
  | ok => exact absurd (checkSizes_eq_ok_iff.1 hsizes) h
  | error e =>
      obtain ⟨e', he', hkind⟩ := exists_kind_eq_of_checkSizes hsizes
        (.blockNotAddressable settings.blockSize.toNat settings.dimension.toNat)
      rw [he']
      exact ⟨e, e', rfl, rfl, hkind⟩

end Sizes

/-! ## Creating an index -/

section Creating

variable {machine : Machine} {settings : Settings}

theorem Index.create_eq_error {e : Error} (h : settings.check = .error e) :
    Index.create machine settings = .error e := by
  unfold Index.create
  rw [h]
  rfl

/-- Settings that pass their check are good enough for the store. -/
theorem Index.exists_create_eq_ok (h : settings.check = .ok ()) :
    ∃ s, Store.create settings.dimension.toNat settings.blockSize.toNat
        settings.initialCapacity.toNat = .ok s ∧
      Index.create machine settings = .ok ⟨settings, s, machine⟩ := by
  obtain ⟨s, hs⟩ := Store.exists_create_eq_ok_iff.2 (Settings.check_eq_ok_iff.1 h).1
  refine ⟨s, hs, ?_⟩
  unfold Index.create
  rw [h, hs]
  rfl

theorem Index.create_eq_error_iff {e : Error} :
    Index.create machine settings = .error e ↔ settings.check = .error e := by
  constructor
  · intro h
    cases hcheck : settings.check with
    | error e' =>
        rw [create_eq_error hcheck] at h
        cases h
        rfl
    | ok =>
        obtain ⟨s, -, hok⟩ := exists_create_eq_ok hcheck
        rw [hok] at h
        cases h
  · exact create_eq_error

/-- **The checks agree.** Settings pass their check just if points have components, blocks have
    rows, the exact number of bytes of a full block can be addressed, and the number of threads, if
    one is given, is not zero. A store can be created just if the first three hold; where one of
    them fails, the two refusals are of one kind. So creating an index fails just if the check of its
    settings does, with the error of that check, and once they pass its store is created. -/
theorem checks_agree (machine : Machine) (settings : Settings) :
    let dimension := settings.dimension.toNat
    let blockSize := settings.blockSize.toNat
    let store := Store.create dimension blockSize settings.initialCapacity.toNat
    let fit := 1 ≤ dimension ∧ 1 ≤ blockSize ∧ 4 * dimension * blockSize ≤ 2 ^ 63 - 1
    (settings.check = .ok () ↔ fit ∧ settings.numThreads ≠ some 0) ∧
    ((∃ s, store = .ok s) ↔ fit) ∧
    (¬ fit → ∃ e e', settings.check = .error e ∧ store = .error e' ∧ e.kind = e'.kind) ∧
    (∀ e, Index.create machine settings = .error e ↔ settings.check = .error e) ∧
    (settings.check = .ok () →
      ∃ s, store = .ok s ∧ Index.create machine settings = .ok ⟨settings, s, machine⟩) :=
  ⟨Settings.check_eq_ok_iff, Store.exists_create_eq_ok_iff, exists_errors_of_not_sizesFit _,
    fun _ => Index.create_eq_error_iff, Index.exists_create_eq_ok⟩

/-- A block of 2 ^ 61 - 1 rows of one component is as large as there can be. The product of the
    sizes that are refused is 2 ^ 64, which wraps around to zero. -/
theorem checks_agree_at_limit :
    let largest : Settings := { dimension := 1, blockSize := 2305843009213693951 }
    let wrapping : Settings := { dimension := 4294967296, blockSize := 4294967296 }
    (∃ s, Store.create 1 2305843009213693951 0 = .ok s ∧
      Index.create .small largest = .ok ⟨largest, s, .small⟩) ∧
    ∃ e e', wrapping.check = .error e ∧ Store.create 4294967296 4294967296 0 = .error e' ∧
      e.kind = e'.kind ∧ Index.create .small wrapping = .error e := by
  intro largest wrapping
  obtain ⟨hcheck, -, -, -, hpassed⟩ := checks_agree .small largest
  obtain ⟨-, -, hrefused, hcreate, -⟩ := checks_agree .small wrapping
  obtain ⟨e, e', he, he', hkind⟩ := hrefused (by decide)
  exact ⟨hpassed (hcheck.2 (by decide)), e, e', he, he', hkind, (hcreate e).2 he⟩

end Creating

end ExactNeighbors
