import BlockCache.Memory.Region
import BlockCache.Proofs.Steps
import Mathlib.Algebra.Order.Group.Nat

/-!
# Region — reading what was written

A write that fits the window of a region changes the bytes of its own range and no others
(`read_overwrite_self`, `read_overwrite_of_apart`), and it moves neither the window nor the end of
the memory. So writes leave the memory around the window alone (`SameOutside`).
-/

namespace BlockCache
namespace Region

variable {r : Region} {offset count : Nat} {data : ByteArray}

/-- The window lies inside the memory. -/
def Inside (r : Region) : Prop :=
  r.start + r.length ≤ r.memory.size

/-! ## New regions -/

theorem size_doubled (byte : UInt8) (k : Nat) : (doubled byte k).size = 2 ^ k := by
  induction k with
  | zero => rfl
  | succ k ih =>
      simp only [doubled, ByteArray.size_append, ih]
      omega

theorem size_filled (length : Nat) (byte : UInt8) : (filled length byte).size = length := by
  have hlt : length < 2 ^ (length.log2 + 1) := Nat.lt_log2_self
  rw [filled, ByteArray.size_extract, size_doubled]
  omega

theorem allocate_eq_ok {length : Nat} (h : allocate length = .ok r) :
    r.Inside ∧ r.length = length := by
  simp only [allocate] at h
  split_ifs at h
  cases h
  exact ⟨by simp [Inside, size_filled], rfl⟩

theorem borrow_eq_ok {block : ByteArray} {start stop : Nat} (h : borrow block start stop = .ok r) :
    r.Inside ∧ r.length = stop - start := by
  simp only [borrow] at h
  split_ifs at h with hlie
  cases h
  refine ⟨?_, rfl⟩
  simp only [Inside]
  omega

/-! ## Reading and writing -/

/-- What fits a window depends on its length only. -/
theorem fits_congr {r' : Region} (h : r'.length = r.length) :
    r'.fits offset count = r.fits offset count := by
  rw [fits, fits, h]

theorem read_eq_ok (hfits : offset + count ≤ r.length) :
    r.read offset count =
      .ok (r.memory.extract (r.start + offset) (r.start + offset + count)) :=
  if_pos (decide_eq_true hfits)

theorem memory_overwrite (r : Region) (offset : Nat) (data : ByteArray) :
    (r.overwrite offset data).memory =
      r.memory.extract 0 (r.start + offset) ++ data ++
        r.memory.extract (r.start + offset + data.size) r.memory.size := by
  have hall : data.extract 0 data.size = data := ByteArray.extract_zero_size
  have hmin : min data.size (data.data.size - 0) = data.size := by simp
  rw [overwrite, ByteArray.copySlice_eq_append, Nat.zero_add, hall, hmin]
  rfl

theorem size_overwrite (hr : r.Inside) (hfits : offset + data.size ≤ r.length) :
    (r.overwrite offset data).memory.size = r.memory.size := by
  unfold Inside at hr
  rw [memory_overwrite, ByteArray.size_append, ByteArray.size_append, ByteArray.size_extract,
    ByteArray.size_extract]
  omega

theorem Inside.overwrite (hr : r.Inside) (hfits : offset + data.size ≤ r.length) :
    (r.overwrite offset data).Inside := by
  unfold Inside
  rw [size_overwrite hr hfits]
  exact hr

/-- What lies in front of a range of the window. -/
theorem size_front (hr : r.Inside) (hfits : offset + count ≤ r.length) :
    (r.memory.extract 0 (r.start + offset)).size = r.start + offset := by
  unfold Inside at hr
  rw [ByteArray.size_extract]
  omega

theorem read_overwrite_self (hr : r.Inside) (hfits : offset + data.size ≤ r.length) :
    (r.overwrite offset data).read offset data.size = .ok data := by
  have hfront := size_front hr hfits
  have hread : (r.overwrite offset data).read offset data.size = .ok
      ((r.overwrite offset data).memory.extract (r.start + offset)
        (r.start + offset + data.size)) := read_eq_ok hfits
  have hdata : (r.memory.extract 0 (r.start + offset) ++ data).extract (r.start + offset)
      (r.start + offset + data.size) = data :=
    ByteArray.extract_append_eq_right hfront.symm (by rw [hfront])
  rw [hread, memory_overwrite, ByteArray.extract_append, hdata, ByteArray.size_append, hfront,
    Nat.sub_eq_zero_of_le (Nat.le_add_right _ _), Nat.sub_self, ByteArray.extract_same,
    ByteArray.append_empty]

theorem read_overwrite_of_apart (hr : r.Inside) (hfits : offset + data.size ≤ r.length)
    {offset' : Nat} (hfits' : offset' + count ≤ r.length)
    (hapart : offset' + count ≤ offset ∨ offset + data.size ≤ offset') :
    (r.overwrite offset data).read offset' count = r.read offset' count := by
  have hfront := size_front hr hfits
  have hread : (r.overwrite offset data).read offset' count = .ok
      ((r.overwrite offset data).memory.extract (r.start + offset')
        (r.start + offset' + count)) := read_eq_ok hfits'
  unfold Inside at hr
  rw [hread, read_eq_ok hfits', memory_overwrite]
  rcases hapart with hbelow | habove
  · -- The range lies in front of the written one.
    have hnone : ∀ b : ByteArray, b.extract (r.start + offset' - (r.start + offset))
        (r.start + offset' + count - (r.start + offset)) = ByteArray.empty := by
      intro b
      rw [ByteArray.extract_eq_empty_iff]
      omega
    rw [ByteArray.append_assoc, ByteArray.extract_append, hfront, hnone, ByteArray.append_empty,
      ByteArray.extract_extract, Nat.zero_add, Nat.zero_add, Nat.min_eq_left (by omega)]
  · have hsize : (r.memory.extract 0 (r.start + offset) ++ data).size =
        r.start + offset + data.size := by
      rw [ByteArray.size_append, hfront]
    have hnone : (r.memory.extract 0 (r.start + offset) ++ data).extract (r.start + offset')
        (r.start + offset' + count) = ByteArray.empty := by
      rw [ByteArray.extract_eq_empty_iff]
      omega
    rw [ByteArray.extract_append, hnone, ByteArray.empty_append, hsize, ByteArray.extract_extract,
      Nat.min_eq_left (by omega)]
    congr 2 <;> omega

/-! ## Byte by byte -/

/-- A byte outside the written range stays as it was. -/
theorem get_overwrite_of_apart (hr : r.Inside) (hfits : offset + data.size ≤ r.length) {x : Nat}
    (hapart : x < r.start + offset ∨ r.start + offset + data.size ≤ x) :
    (r.overwrite offset data).memory.data[x]? = r.memory.data[x]? := by
  have hfront : (r.memory.extract 0 (r.start + offset)).data.size = r.start + offset :=
    size_front hr hfits
  have hboth : ((r.memory.extract 0 (r.start + offset)).data ++ data.data).size =
      r.start + offset + data.size := by
    rw [Array.size_append, hfront, ByteArray.size_data]
  unfold Inside at hr
  rw [memory_overwrite, ByteArray.data_append, ByteArray.data_append]
  rcases hapart with hbelow | habove
  · rw [Array.append_assoc, Array.getElem?_append_left (by rwa [hfront]),
      ByteArray.data_extract, Array.getElem?_extract, ByteArray.size_data, if_pos (by omega),
      Nat.zero_add]
  · rw [Array.getElem?_append_right (by rwa [hboth]), hboth, ByteArray.data_extract,
      Array.getElem?_extract, ByteArray.size_data, Nat.add_sub_cancel' habove]
    -- Past its end the memory has no bytes either way.
    split_ifs with hx
    · rfl
    · rw [Array.getElem?_eq_none]
      rw [ByteArray.size_data]
      omega

/-- `r'` is the window of `r` on a memory that has the same size, and the same bytes outside. -/
structure SameOutside (r r' : Region) : Prop where
  start_eq : r'.start = r.start
  length_eq : r'.length = r.length
  size_eq : r'.memory.size = r.memory.size
  outside : ∀ x, x < r.start ∨ r.start + r.length ≤ x → r'.memory.data[x]? = r.memory.data[x]?

theorem SameOutside.refl (r : Region) : r.SameOutside r :=
  ⟨rfl, rfl, rfl, fun _ _ => rfl⟩

theorem SameOutside.trans {r' r'' : Region} (h : r.SameOutside r') (h' : r'.SameOutside r'') :
    r.SameOutside r'' where
  start_eq := h'.start_eq.trans h.start_eq
  length_eq := h'.length_eq.trans h.length_eq
  size_eq := h'.size_eq.trans h.size_eq
  outside := by
    intro x hx
    rw [h'.outside x (by rwa [h.start_eq, h.length_eq]), h.outside x hx]

/-- What fits the window is written inside it. -/
theorem sameOutside_overwrite (hr : r.Inside) (hfits : offset + data.size ≤ r.length) :
    r.SameOutside (r.overwrite offset data) where
  start_eq := rfl
  length_eq := rfl
  size_eq := size_overwrite hr hfits
  outside := by
    intro x hx
    exact get_overwrite_of_apart hr hfits (by omega)

end Region
end BlockCache
