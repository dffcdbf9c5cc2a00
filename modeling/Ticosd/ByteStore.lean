import Mathlib

/-! # Byte stores — flat memory, little-endian words and traced access

    A byte-addressed memory is a function `Nat → UInt8`; nothing here knows
    where a particular buffer ends.  Three layers:

    * **`Mem`** — loads and stores of byte strings, with the frame law (a store
      changes only its own range) and the read-back law;
    * **`le32` / `load32`** — little-endian 32-bit words and their round trip;
    * **`Traced`** — a computation together with the byte addresses it reads and
      the stores it makes in program order, so that "every access is in
      bounds" and "the memory after a prefix of the stores" are statements
      about the same definition that computes the result. -/

namespace ByteStore

/-- A flat byte-addressed memory. -/
abbrev Mem := Nat → UInt8

/-- Store a byte string at an address. -/
def Mem.storeBytes (m : Mem) (addr : Nat) (bs : List UInt8) : Mem :=
  fun a => if addr ≤ a ∧ a < addr + bs.length then bs.getD (a - addr) 0 else m a

/-- Load `len` bytes from an address. -/
def Mem.loadBytes (m : Mem) (addr len : Nat) : List UInt8 :=
  (List.range len).map (fun i => m (addr + i))

/-- The four bytes of a 32-bit word, least significant first. -/
def le32 (n : Nat) : List UInt8 :=
  [UInt8.ofNat n, UInt8.ofNat (n / 2 ^ 8), UInt8.ofNat (n / 2 ^ 16),
    UInt8.ofNat (n / 2 ^ 24)]

/-- Load a little-endian 32-bit word. -/
def Mem.load32 (m : Mem) (addr : Nat) : Nat :=
  (m addr).toNat + 256 * ((m (addr + 1)).toNat
    + 256 * ((m (addr + 2)).toNat + 256 * (m (addr + 3)).toNat))

/-! ## Frame and read-back laws -/

/-- A store leaves every byte outside its range alone. -/
theorem Mem.storeBytes_frame (m : Mem) {addr a : Nat} {bs : List UInt8}
    (h : a < addr ∨ addr + bs.length ≤ a) : m.storeBytes addr bs a = m a := by
  have hno : ¬ (addr ≤ a ∧ a < addr + bs.length) := by omega
  simp only [Mem.storeBytes, if_neg hno]

/-- Inside its range a store puts the stored byte. -/
theorem Mem.storeBytes_inside (m : Mem) {addr i : Nat} {bs : List UInt8}
    (h : i < bs.length) : m.storeBytes addr bs (addr + i) = bs.getD i 0 := by
  have hin : addr ≤ addr + i ∧ addr + i < addr + bs.length := by omega
  simp only [Mem.storeBytes, if_pos hin, Nat.add_sub_cancel_left]

@[simp] theorem Mem.storeBytes_nil (m : Mem) (addr : Nat) :
    m.storeBytes addr [] = m := by
  funext a
  exact m.storeBytes_frame (by simp only [List.length_nil]; omega)

/-- Two adjacent stores are one store of the concatenation. -/
theorem Mem.storeBytes_append (m : Mem) (addr : Nat) (xs ys : List UInt8) :
    (m.storeBytes addr xs).storeBytes (addr + xs.length) ys
      = m.storeBytes addr (xs ++ ys) := by
  funext a
  by_cases hx : addr ≤ a ∧ a < addr + xs.length
  · rw [Mem.storeBytes_frame _ (Or.inl hx.2)]
    obtain ⟨i, rfl⟩ := Nat.exists_eq_add_of_le hx.1
    have hi : i < xs.length := by omega
    rw [m.storeBytes_inside hi, m.storeBytes_inside (by rw [List.length_append]; omega)]
    exact (List.getD_append _ _ _ _ hi).symm
  · by_cases hy : addr + xs.length ≤ a ∧ a < addr + xs.length + ys.length
    · obtain ⟨i, rfl⟩ := Nat.exists_eq_add_of_le hy.1
      have hi : i < ys.length := by omega
      rw [Mem.storeBytes_inside _ hi, Nat.add_assoc,
        m.storeBytes_inside (by rw [List.length_append]; omega),
        List.getD_append_right _ _ _ _ (by omega), Nat.add_sub_cancel_left]
    · rw [Mem.storeBytes_frame _ (by omega), Mem.storeBytes_frame _ (by omega),
        Mem.storeBytes_frame _ (by rw [List.length_append]; omega)]

@[simp] theorem Mem.loadBytes_length (m : Mem) (addr len : Nat) :
    (m.loadBytes addr len).length = len := by
  simp only [Mem.loadBytes, List.length_map, List.length_range]

/-- Memories that agree on a range load the same bytes from it. -/
theorem Mem.loadBytes_congr {m m' : Mem} {addr len : Nat}
    (h : ∀ a, addr ≤ a → a < addr + len → m' a = m a) :
    m'.loadBytes addr len = m.loadBytes addr len := by
  refine List.map_congr_left ?_
  intro i hi
  have hlt := List.mem_range.mp hi
  exact h (addr + i) (by omega) (by omega)

/-- A byte string taken apart at one of its bytes. -/
theorem Mem.loadBytes_split (m : Mem) (addr : Nat) {i len : Nat} (h : i < len) :
    m.loadBytes addr len = m.loadBytes addr i
      ++ m (addr + i) :: m.loadBytes (addr + i + 1) (len - i - 1) := by
  obtain ⟨k, rfl⟩ := Nat.exists_eq_add_of_lt h
  rw [show i + k + 1 - i - 1 = k by omega, show i + k + 1 = i + (1 + k) by omega]
  simp only [Mem.loadBytes, List.range_add, List.map_append, List.map_map, List.range_one,
    List.singleton_append, List.map_cons]
  congr 2
  apply List.map_congr_left
  intro j _
  simp only [Function.comp, Nat.add_assoc]

/-- Memories that agree on a word load the same word. -/
theorem Mem.load32_congr {m m' : Mem} {addr : Nat}
    (h : ∀ a, addr ≤ a → a < addr + 4 → m' a = m a) :
    m'.load32 addr = m.load32 addr := by
  simp only [Mem.load32]
  rw [h addr (by omega) (by omega), h (addr + 1) (by omega) (by omega),
    h (addr + 2) (by omega) (by omega), h (addr + 3) (by omega) (by omega)]

/-- Loading back exactly the range that was stored. -/
theorem Mem.loadBytes_storeBytes (m : Mem) (addr : Nat) (bs : List UInt8) :
    (m.storeBytes addr bs).loadBytes addr bs.length = bs := by
  refine List.ext_getElem (by simp) ?_
  intro i h1 h2
  simp only [Mem.loadBytes, List.getElem_map, List.getElem_range]
  rw [m.storeBytes_inside h2]
  exact (List.getElem_eq_getD 0).symm

/-- Four bytes that spell a word load as that word. -/
theorem Mem.load32_of_le32 {m : Mem} {addr n : Nat} (hn : n < 2 ^ 32)
    (h : ∀ i, i < 4 → m (addr + i) = (le32 n).getD i 0) : m.load32 addr = n := by
  have e0 : m addr = UInt8.ofNat n := h 0 (by omega)
  have e1 : m (addr + 1) = UInt8.ofNat (n / 2 ^ 8) := h 1 (by omega)
  have e2 : m (addr + 2) = UInt8.ofNat (n / 2 ^ 16) := h 2 (by omega)
  have e3 : m (addr + 3) = UInt8.ofNat (n / 2 ^ 24) := h 3 (by omega)
  simp only [Mem.load32, e0, e1, e2, e3, UInt8.toNat_ofNat']
  omega

@[simp] theorem le32_length (n : Nat) : (le32 n).length = 4 := rfl

/-! ## Traced computations -/

/-- A result together with the byte addresses read on the way to it and the
    stores made, both in program order. -/
structure Traced (α : Type) where
  val : α
  loads : List Nat
  stores : List (Nat × List UInt8)

namespace Traced

variable {α β : Type}

/-- A result reached without touching memory. -/
protected def pure (a : α) : Traced α := ⟨a, [], []⟩

/-- Run `x`, then `f` on its result; the accesses are concatenated. -/
protected def bind (x : Traced α) (f : α → Traced β) : Traced β :=
  ⟨(f x.val).val, x.loads ++ (f x.val).loads, x.stores ++ (f x.val).stores⟩

instance : Monad Traced where
  pure := Traced.pure
  bind := Traced.bind

@[simp] theorem pure_val (a : α) : (pure a : Traced α).val = a := rfl
@[simp] theorem pure_loads (a : α) : (pure a : Traced α).loads = [] := rfl
@[simp] theorem pure_stores (a : α) : (pure a : Traced α).stores = [] := rfl
@[simp] theorem bind_val (x : Traced α) (f : α → Traced β) :
    (x >>= f).val = (f x.val).val := rfl
@[simp] theorem bind_loads (x : Traced α) (f : α → Traced β) :
    (x >>= f).loads = x.loads ++ (f x.val).loads := rfl
@[simp] theorem bind_stores (x : Traced α) (f : α → Traced β) :
    (x >>= f).stores = x.stores ++ (f x.val).stores := rfl

/-- Read one byte. -/
def load8 (m : Mem) (addr : Nat) : Traced UInt8 := ⟨m addr, [addr], []⟩

/-- Read one little-endian word. -/
def load32 (m : Mem) (addr : Nat) : Traced Nat :=
  ⟨m.load32 addr, [addr, addr + 1, addr + 2, addr + 3], []⟩

/-- Read a byte string. -/
def loadBytes (m : Mem) (addr len : Nat) : Traced (List UInt8) :=
  ⟨m.loadBytes addr len, List.range' addr len, []⟩

/-- Store a byte string. -/
def storeBytes (m : Mem) (addr : Nat) (bs : List UInt8) : Traced Mem :=
  ⟨m.storeBytes addr bs, [], [(addr, bs)]⟩

@[simp] theorem load8_val (m : Mem) (addr : Nat) : (load8 m addr).val = m addr := rfl
@[simp] theorem load32_val (m : Mem) (addr : Nat) :
    (load32 m addr).val = m.load32 addr := rfl
@[simp] theorem loadBytes_val (m : Mem) (addr len : Nat) :
    (loadBytes m addr len).val = m.loadBytes addr len := rfl
@[simp] theorem storeBytes_val (m : Mem) (addr : Nat) (bs : List UInt8) :
    (storeBytes m addr bs).val = m.storeBytes addr bs := rfl

/-- Every byte read or stored lies below `limit`. -/
def InBounds (limit : Nat) (t : Traced α) : Prop :=
  (∀ a ∈ t.loads, a < limit) ∧ ∀ s ∈ t.stores, s.1 + s.2.length ≤ limit

theorem inBounds_pure (limit : Nat) (a : α) : (pure a : Traced α).InBounds limit :=
  ⟨fun a h => absurd h (by simp), fun s h => absurd h (by simp)⟩

theorem inBounds_bind {limit : Nat} {x : Traced α} {f : α → Traced β} :
    (x >>= f).InBounds limit ↔ x.InBounds limit ∧ (f x.val).InBounds limit := by
  simp only [InBounds, bind_loads, bind_stores, List.mem_append]
  constructor
  · rintro ⟨hl, hs⟩
    exact ⟨⟨fun a ha => hl a (Or.inl ha), fun s h => hs s (Or.inl h)⟩,
      ⟨fun a ha => hl a (Or.inr ha), fun s h => hs s (Or.inr h)⟩⟩
  · rintro ⟨⟨hl1, hs1⟩, ⟨hl2, hs2⟩⟩
    exact ⟨fun a ha => ha.elim (hl1 a) (hl2 a), fun s h => h.elim (hs1 s) (hs2 s)⟩

theorem inBounds_load8 {limit : Nat} {m : Mem} {addr : Nat} :
    (load8 m addr).InBounds limit ↔ addr < limit := by
  simp [InBounds, load8]

theorem inBounds_load32 {limit : Nat} {m : Mem} {addr : Nat} :
    (load32 m addr).InBounds limit ↔ addr + 4 ≤ limit := by
  simp only [InBounds, load32, List.mem_cons, List.not_mem_nil, or_false,
    forall_eq_or_imp, forall_eq, IsEmpty.forall_iff, implies_true, and_true]
  omega

theorem inBounds_loadBytes {limit : Nat} {m : Mem} {addr len : Nat}
    (h : addr + len ≤ limit) : (loadBytes m addr len).InBounds limit := by
  refine ⟨?_, fun s hs => nomatch hs⟩
  intro a ha
  have := List.mem_range'_1.mp ha
  omega

theorem inBounds_storeBytes {limit : Nat} {m : Mem} {addr : Nat} {bs : List UInt8} :
    (storeBytes m addr bs).InBounds limit ↔ addr + bs.length ≤ limit := by
  simp [InBounds, storeBytes]

end Traced

/-- The memory after a list of stores, made in order. -/
def applyStores (m : Mem) (ss : List (Nat × List UInt8)) : Mem :=
  ss.foldl (fun m s => m.storeBytes s.1 s.2) m

end ByteStore
