import GraphStore.Page
import Mathlib.Algebra.Group.Nat.Defs
import Mathlib.Algebra.Order.Group.Nat
import Mathlib.Algebra.BigOperators.Group.List.Basic

/-!
# Pages as lists of values

* `Page.cut?_values` : the bytes at the place of a value are the value;
* `Page.ofBytes?_eq_ok_iff` : a page is made of just the bytes that it can hold;
* `Page.values_of_appendAll` : a page holds the values it was made of;
* `Page.appendAll_of_find?` : the first value of another width is refused;
* `Page.slice?_eq_cut?` : what words that wrap around find in a page whose size is a word, which is
  the value at an index of the page (`Page.slice?_of_lt`) and not always a failure past its end
  (`Page.found_past_end`);
* `Page.ListsChunks` : what each way of reading a page tells of one list (`Page.lists_grown`).
-/

namespace GraphStore.Page

variable {p : Page} {values : List Bytes} {v : Bytes} {stride : UInt64} {bytes : Bytes}

/-! ## Runs of bytes -/

theorem chunks_flatten (width : Nat) (values : List Bytes) (h : ∀ v ∈ values, v.length = width) :
    chunks width values.length values.flatten = values := by
  induction values with
  | nil => rfl
  | cons v rest ih =>
    obtain ⟨hv, hrest⟩ := List.forall_mem_cons.1 h
    rw [List.length_cons, chunks, List.flatten_cons, List.take_left' hv, List.drop_left' hv, ih hrest]

theorem length_chunks (width count : Nat) (bytes : Bytes) :
    (chunks width count bytes).length = count := by
  induction count generalizing bytes with
  | zero => rfl
  | succ count ih => rw [chunks, List.length_cons, ih]

theorem getElem?_chunks {width count i : Nat} (bytes : Bytes) (hi : i < count) :
    (chunks width count bytes)[i]? = some ((bytes.drop (i * width)).take width) := by
  induction count generalizing bytes i with
  | zero => cases hi
  | succ count ih =>
    cases i with
    | zero => rw [Nat.zero_mul]; rfl
    | succ i =>
      rw [chunks, List.getElem?_cons_succ, ih _ (Nat.lt_of_succ_lt_succ hi), List.drop_drop,
        Nat.succ_mul, Nat.add_comm]

theorem width_pos (p : Page) : 0 < p.width := p.stride_pos

theorem size_mul_width (p : Page) : p.size * p.width = p.byteSize :=
  Nat.div_mul_cancel p.stride_dvd

@[simp] theorem length_values (p : Page) : p.values.length = p.size := length_chunks _ _ _

theorem lt_size_iff {i : Nat} : i < p.size ↔ i * p.width + p.width ≤ p.byteSize := by
  rw [← p.size_mul_width, ← Nat.succ_mul]
  exact (Nat.mul_le_mul_right_iff p.width_pos).symm

theorem getElem?_values {i : Nat} (hi : i < p.size) :
    p.values[i]? = some ((p.bytes.drop (i * p.width)).take p.width) :=
  getElem?_chunks _ hi

theorem getElem?_values_of_le {i : Nat} (hi : p.size ≤ i) : p.values[i]? = none :=
  List.getElem?_eq_none (p.length_values.symm ▸ hi)

theorem cut?_width (p : Page) (start : Nat) : p.cut? start (start + p.width) =
    if start + p.width ≤ p.byteSize then some ((p.bytes.drop start).take p.width) else none := by
  unfold cut?
  simp only [Nat.le_add_right, true_and, Nat.add_sub_cancel_left]

/-- At the place of a value there is the value, and past the last one there is nothing. -/
theorem cut?_values (p : Page) (i : Nat) :
    p.cut? (i * p.width) (i * p.width + p.width) = p.values[i]? := by
  rw [cut?_width]
  by_cases hi : i < p.size
  · rw [if_pos (lt_size_iff.1 hi), getElem?_values hi]
  · rw [if_neg fun hstop => hi (lt_size_iff.2 hstop), getElem?_values_of_le (Nat.le_of_not_lt hi)]

theorem length_of_mem_values (h : v ∈ p.values) : v.length = p.width := by
  obtain ⟨i, hi⟩ := List.getElem?_of_mem h
  have hlt : i < p.size := by
    rw [← length_values]
    exact (List.getElem?_eq_some_iff.1 hi).1
  rw [getElem?_values hlt, Option.some_inj] at hi
  rw [← hi, List.length_take, List.length_drop]
  have hstop : i * p.width + p.width ≤ p.bytes.length := lt_size_iff.1 hlt
  omega

theorem flatten_chunks (width count : Nat) (bytes : Bytes) (h : bytes.length = count * width) :
    (chunks width count bytes).flatten = bytes := by
  induction count generalizing bytes with
  | zero =>
    rw [Nat.zero_mul, List.length_eq_zero_iff] at h
    exact h.symm
  | succ count ih =>
    rw [chunks, List.flatten_cons, ih, List.take_append_drop]
    rw [List.length_drop, h, Nat.succ_mul, Nat.add_sub_cancel]

theorem flatten_values (p : Page) : p.values.flatten = p.bytes :=
  flatten_chunks _ _ _ p.size_mul_width.symm

theorem isEmpty_iff : p.isEmpty = true ↔ p.values = [] := by
  rw [← List.length_eq_zero_iff, length_values, isEmpty, List.isEmpty_iff_length_eq_zero]
  change p.byteSize = 0 ↔ _
  rw [← p.size_mul_width, Nat.mul_eq_zero, or_iff_left (Nat.ne_of_gt p.width_pos)]

/-! ## Appending -/

theorem append_of_length (h : v.length = p.width) :
    ∃ p', p.append v = .ok p' ∧ p'.stride = p.stride ∧ p'.bytes = p.bytes ++ v := by
  unfold append
  rw [dif_pos h]
  exact ⟨_, rfl, rfl, rfl⟩

theorem append_of_length_ne (h : v.length ≠ p.width) :
    p.append v = .error (.wrongWidth p.stride v.length) := dif_neg h

theorem appendAll_eq (p : Page) (values : List Bytes) (h : ∀ v ∈ values, v.length = p.width) :
    ∃ p', p.appendAll values = .ok p' ∧ p'.stride = p.stride ∧
      p'.bytes = p.bytes ++ values.flatten := by
  induction values generalizing p with
  | nil => exact ⟨p, rfl, rfl, (List.append_nil _).symm⟩
  | cons v rest ih =>
    obtain ⟨hv, hrest⟩ := List.forall_mem_cons.1 h
    obtain ⟨p₁, happend, hstride₁, hbytes₁⟩ := append_of_length hv
    have hwidth : p₁.width = p.width := congrArg UInt64.toNat hstride₁
    obtain ⟨p', hp', hstride, hbytes⟩ := ih p₁ (by rwa [hwidth])
    refine ⟨p', ?_, hstride.trans hstride₁, ?_⟩
    · unfold appendAll at hp' ⊢
      rw [List.foldlM_cons, happend]
      exact hp'
    · rw [hbytes, hbytes₁, List.flatten_cons]
      exact List.append_assoc _ _ _

/-- Values are appended up to the first one of another width, which is the error. -/
theorem appendAll_of_find? (h : values.find? (·.length ≠ p.width) = some v) :
    p.appendAll values = .error (.wrongWidth p.stride v.length) := by
  induction values generalizing p with
  | nil => cases h
  | cons first rest ih =>
    unfold appendAll at ih ⊢
    rw [List.foldlM_cons]
    by_cases hfirst : first.length = p.width
    · rw [List.find?_cons_of_neg (by simpa using hfirst)] at h
      obtain ⟨p₁, happend, hstride, -⟩ := append_of_length hfirst
      have hwidth : p₁.width = p.width := congrArg UInt64.toNat hstride
      rw [happend, ← hstride]
      exact ih (by rwa [hwidth])
    · rw [List.find?_cons_of_pos (by simpa using hfirst)] at h
      obtain rfl := Option.some.inj h
      rw [append_of_length_ne hfirst]
      rfl

/-! ## Pages of given values -/

theorem ofBytes?_eq_ok_iff : ofBytes? stride bytes = .ok p ↔ p.stride = stride ∧ p.bytes = bytes := by
  constructor
  · intro h
    unfold ofBytes? at h
    split at h
    · split at h
      · obtain rfl := Except.ok.inj h
        exact ⟨rfl, rfl⟩
      · cases h
    · cases h
  · rintro ⟨rfl, rfl⟩
    unfold ofBytes?
    rw [dif_pos p.stride_pos, dif_pos (Nat.mod_eq_zero_of_dvd p.stride_dvd)]

/-- Bytes make a page if they can be cut into values. -/
theorem exists_ofBytes?_iff : (∃ p, ofBytes? stride bytes = .ok p) ↔
    0 < stride.toNat ∧ stride.toNat ∣ bytes.length := by
  constructor
  · rintro ⟨p, hp⟩
    obtain ⟨rfl, rfl⟩ := ofBytes?_eq_ok_iff.1 hp
    exact ⟨p.stride_pos, p.stride_dvd⟩
  · rintro ⟨hpos, hdvd⟩
    exact ⟨⟨stride, bytes, hpos, hdvd⟩, ofBytes?_eq_ok_iff.2 ⟨rfl, rfl⟩⟩

theorem empty?_eq (hpos : 0 < stride.toNat) :
    empty? stride = .ok ⟨stride, [], hpos, Nat.dvd_zero _⟩ :=
  ofBytes?_eq_ok_iff.2 ⟨rfl, rfl⟩

theorem values_eq_of_flatten (hbytes : p.bytes = values.flatten)
    (h : ∀ v ∈ values, v.length = p.width) : p.values = values := by
  have hlength : values.flatten.length = values.length * p.width := by
    rw [List.length_flatten, List.map_congr_left h, List.map_const', List.sum_replicate_nat]
  unfold Page.values size byteSize
  rw [hbytes, hlength, Nat.mul_div_cancel _ p.width_pos]
  exact chunks_flatten _ values h

theorem values_of_appendAll (hpos : 0 < stride.toNat) (h : ∀ v ∈ values, v.length = stride.toNat) :
    ∃ p, (do let page ← empty? stride; page.appendAll values) = .ok p ∧ p.stride = stride ∧
      p.values = values := by
  rw [empty?_eq hpos]
  obtain ⟨p, hp, hstride, hbytes⟩ := appendAll_eq ⟨stride, [], hpos, Nat.dvd_zero _⟩ values h
  have hwidth : p.width = stride.toNat := congrArg UInt64.toNat hstride
  exact ⟨p, hp, hstride, values_eq_of_flatten hbytes (hwidth ▸ h)⟩

/-! ## Offsets as words -/

/-- Where a word comes to that counts the bytes before an index and is left to wrap around. -/
def place (p : Page) (i : UInt64) : Nat := i.toNat * p.width % UInt64.size

theorem place_of_lt {i : UInt64} (h : i.toNat * p.width < UInt64.size) :
    p.place i = i.toNat * p.width := Nat.mod_eq_of_lt h

theorem cut?_of_lt {start stop : Nat} (h : p.byteSize < stop) : p.cut? start stop = none :=
  if_neg fun h' => Nat.not_le_of_lt h h'.2

/-- Words that wrap around find what there is at the place they come to. A stop that wraps around
itself lies before the start, and finds nothing. -/
theorem slice?_eq_cut? (hsize : p.byteSize < UInt64.size) (i : UInt64) :
    p.slice? i = p.cut? (p.place i) (p.place i + p.width) := by
  have hstart : (i * p.stride).toNat = p.place i := UInt64.toNat_mul _ _
  have hstop : (i * p.stride + p.stride).toNat = (p.place i + p.width) % UInt64.size := by
    rw [UInt64.toNat_add, hstart]
    rfl
  unfold slice?
  simp only
  rw [hstop, hstart]
  by_cases hfits : p.place i + p.width < UInt64.size
  · rw [Nat.mod_eq_of_lt hfits]
  · have hwrap : (p.place i + p.width) % UInt64.size < p.place i := by
      have hplace : p.place i < UInt64.size := Nat.mod_lt _ (by decide)
      have hwidth : p.width < UInt64.size := p.stride.toNat_lt
      rw [Nat.mod_eq_sub_mod (Nat.le_of_not_lt hfits), Nat.mod_eq_of_lt (by omega)]
      omega
    rw [cut?_of_lt (Nat.lt_of_lt_of_le hsize (Nat.le_of_not_lt hfits))]
    exact if_neg fun h => Nat.not_le_of_lt hwrap h.1

-- The place can lie between values: here it is that of the second byte.
example : (slice? ⟨3, [1, 2, 3, 4, 5, 6], by decide, by decide⟩ 12297829382473034411) =
    some [2, 3, 4] := by decide

/-- Where the words come to the place of a value they find that value, whatever the index was, and
past the last place nothing. -/
theorem slice?_of_place (hsize : p.byteSize < UInt64.size) {i : UInt64} {j : Nat}
    (h : p.place i = j * p.width) : p.slice? i = p.values[j]? := by
  rw [slice?_eq_cut? hsize, h, cut?_values]

theorem slice?_of_fits (hsize : p.byteSize < UInt64.size) {i : UInt64}
    (h : i.toNat * p.width < UInt64.size) : p.slice? i = p.values[i.toNat]? :=
  slice?_of_place hsize (place_of_lt h)

/-- A width that divides the number of words leaves no place between values, and the indices go round. -/
theorem slice?_of_dvd (hsize : p.byteSize < UInt64.size) (h : p.width ∣ UInt64.size) (i : UInt64) :
    p.slice? i = p.values[i.toNat % (UInt64.size / p.width)]? := by
  refine slice?_of_place hsize ?_
  calc i.toNat * p.width % UInt64.size
      = i.toNat * p.width % (UInt64.size / p.width * p.width) := by rw [Nat.div_mul_cancel h]
    _ = i.toNat % (UInt64.size / p.width) * p.width := Nat.mul_mod_mul_right _ _ _

theorem fits_of_lt (hsize : p.byteSize < UInt64.size) {i : Nat} (hi : i < p.size) :
    i * p.width + p.width < UInt64.size :=
  Nat.lt_of_le_of_lt (lt_size_iff.1 hi) hsize

/-- In the page no offset overflows. -/
theorem slice?_of_lt (hsize : p.byteSize < UInt64.size) {i : UInt64} (hi : i.toNat < p.size) :
    p.slice? i = p.values[i.toNat]? :=
  slice?_of_fits hsize (Nat.lt_of_le_of_lt (Nat.le_add_right _ _) (fits_of_lt hsize hi))

/-- Past the end words can come back to a value: the offset of this index is the number of words. -/
theorem found_past_end : ∃ p, ofBytes? 2 [1, 2] = .ok p ∧
    p.size ≤ (9223372036854775808 : UInt64).toNat ∧ p.slice? 9223372036854775808 = some [1, 2] ∧
      p.get? 9223372036854775808 = none := by
  have hp : ofBytes? 2 [1, 2] = .ok _ := rfl
  exact ⟨_, hp, by decide, by decide, by decide⟩

theorem le_of_not_fits (hsize : p.byteSize < UInt64.size) {i : Nat}
    (h : ¬ i * p.width + p.width < UInt64.size) : p.size ≤ i :=
  Nat.le_of_not_lt fun hi => h (fits_of_lt hsize hi)

/-- Offsets as numbers find the value at any index, and nothing past the end. -/
theorem get?_eq (hsize : p.byteSize < UInt64.size) (i : UInt64) : p.get? i = p.values[i.toNat]? := by
  unfold get?
  simp only
  split
  · exact p.cut?_values i.toNat
  · next hlarge => exact (getElem?_values_of_le (le_of_not_fits hsize hlarge)).symm

/-- So do words under overflow checks: one that overflows belongs to an index past the end. -/
theorem checkedSlice?_eq (hsize : p.byteSize < UInt64.size) (i : UInt64) :
    p.checkedSlice? i = p.values[i.toNat]? := by
  unfold checkedSlice?
  split
  · next hfits => exact slice?_of_fits hsize (Nat.lt_of_le_of_lt (Nat.le_add_right _ _) hfits)
  · next hlarge => exact (getElem?_values_of_le (le_of_not_fits hsize hlarge)).symm

theorem last?_eq (hsize : p.byteSize < UInt64.size) : p.last? = p.values.getLast? := by
  rw [List.getLast?_eq_getElem?, length_values]
  unfold last?
  split
  · next hzero =>
    have hnil : p.values = [] := List.length_eq_zero_iff.1 (p.length_values.trans hzero)
    rw [hnil]
    rfl
  · have hle : p.size ≤ p.byteSize := by
      rw [← p.size_mul_width]
      exact Nat.le_mul_of_pos_right _ p.width_pos
    have hindex : (UInt64.ofNat (p.size - 1)).toNat = p.size - 1 :=
      UInt64.toNat_ofNat_of_lt' (by omega)
    rw [slice?_of_lt hsize (by omega), hindex]

/-! ## Pages as lists -/

/-- The ways of reading the page tell of the same list of values. Words that wrap around do so for the
indices of the page; past its end they tell what there is at the place they come to. A value offered
for the end of the page joins the list or is refused. -/
structure ListsChunks (p : Page) (stride : UInt64) (chunks : List Bytes) : Prop where
  stride_eq : p.stride = stride
  stride_pos : 0 < stride.toNat
  stride_dvd : stride.toNat ∣ p.bytes.length
  width : ∀ v ∈ chunks, v.length = stride.toNat
  flatten : chunks.flatten = p.bytes
  values : p.values = chunks
  size : p.size = chunks.length
  byteSize : p.byteSize = chunks.length * stride.toNat
  isEmpty : p.isEmpty = chunks.isEmpty
  last? : p.last? = chunks.getLast?
  get? : ∀ i : UInt64, p.get? i = chunks[i.toNat]?
  checkedSlice? : ∀ i : UInt64, p.checkedSlice? i = chunks[i.toNat]?
  slice? : ∀ i : UInt64, i.toNat < chunks.length → p.slice? i = chunks[i.toNat]?
  /-- Whether an index is in the page or past its end, words that wrap around find the bytes from
  the place they come to, if these exist. -/
  slice?_bytes : ∀ i : UInt64, p.slice? i =
    if p.place i + stride.toNat ≤ p.bytes.length then
      some ((p.bytes.drop (p.place i)).take stride.toNat)
    else none
  /-- Those bytes are a value where the place is that of a value. -/
  slice?_place : ∀ (i : UInt64) (j : Nat), p.place i = j * stride.toNat → p.slice? i = chunks[j]?
  slice?_fits : ∀ i : UInt64, i.toNat * stride.toNat < UInt64.size → p.slice? i = chunks[i.toNat]?
  slice?_dvd : stride.toNat ∣ UInt64.size →
    ∀ i : UInt64, p.slice? i = chunks[i.toNat % (UInt64.size / stride.toNat)]?
  append : ∀ v : Bytes, v.length = stride.toNat →
    ∃ p', p.append v = .ok p' ∧ p'.bytes = p.bytes ++ v ∧ p'.values = chunks ++ [v]
  refuse : ∀ v : Bytes, v.length ≠ stride.toNat →
    p.append v = .error (.wrongWidth stride v.length)

theorem values_append (h : v.length = p.width) : ∃ p', p.append v = .ok p' ∧
    p'.stride = p.stride ∧ p'.bytes = p.bytes ++ v ∧ p'.values = p.values ++ [v] := by
  obtain ⟨p', hp', hstride, hbytes⟩ := append_of_length h
  refine ⟨p', hp', hstride, hbytes, values_eq_of_flatten ?_ fun u hu => ?_⟩
  · rw [hbytes, List.flatten_append, flatten_values, List.flatten_singleton]
  · have hwidth : p'.width = p.width := congrArg UInt64.toNat hstride
    rw [hwidth]
    rcases List.mem_append.1 hu with hu | hu
    · exact length_of_mem_values hu
    · rw [List.mem_singleton.1 hu, h]

theorem listsChunks (hsize : p.byteSize < UInt64.size) : p.ListsChunks p.stride p.values where
  stride_eq := rfl
  stride_pos := p.stride_pos
  stride_dvd := p.stride_dvd
  width _ := length_of_mem_values
  flatten := p.flatten_values
  values := rfl
  size := p.length_values.symm
  byteSize := by
    rw [length_values]
    exact p.size_mul_width.symm
  isEmpty := by rw [Bool.eq_iff_iff, isEmpty_iff, List.isEmpty_iff]
  last? := last?_eq hsize
  get? := get?_eq hsize
  checkedSlice? := checkedSlice?_eq hsize
  slice? i hi := slice?_of_lt hsize (p.length_values ▸ hi)
  slice?_bytes i := (slice?_eq_cut? hsize i).trans (p.cut?_width _)
  slice?_place i j := slice?_of_place hsize
  slice?_fits i := slice?_of_fits hsize
  slice?_dvd := slice?_of_dvd hsize
  append v hv := by
    obtain ⟨p', hp', -, hbytes, hvalues⟩ := values_append hv
    exact ⟨p', hp', hbytes, hvalues⟩
  refuse _ := append_of_length_ne

/-- The page after values were offered for its end, one after the other. One that is refused leaves it
as it is. -/
def grown (p : Page) (offered : List Bytes) : Page :=
  offered.foldl (fun p v => (p.append v).toOption.getD p) p

theorem values_grown (p : Page) (offered : List Bytes) : (p.grown offered).stride = p.stride ∧
    (p.grown offered).values = p.values ++ offered.filter (·.length = p.width) := by
  induction offered generalizing p with
  | nil => exact ⟨rfl, (List.append_nil _).symm⟩
  | cons v rest ih =>
    change (grown ((p.append v).toOption.getD p) rest).stride = _ ∧
      (grown ((p.append v).toOption.getD p) rest).values = _
    by_cases hv : v.length = p.width
    · obtain ⟨p', hp', hstride, -, hvalues⟩ := values_append hv
      have hwidth : p'.width = p.width := congrArg UInt64.toNat hstride
      obtain ⟨hstride', hvalues'⟩ := ih p'
      rw [hp', List.filter_cons_of_pos (by simpa using hv)]
      refine ⟨hstride'.trans hstride, hvalues'.trans ?_⟩
      rw [hvalues, hwidth, List.append_assoc, List.singleton_append]
    · rw [append_of_length_ne hv, List.filter_cons_of_neg (by simpa using hv)]
      exact ih p

/-- Bytes are taken for a page if they can be cut into values. Whatever is offered for its end later,
the page is the list of those values and the ones that were taken. -/
theorem lists_grown (stride : UInt64) (bytes : Bytes) :
    ((∃ p, ofBytes? stride bytes = .ok p) ↔ 0 < stride.toNat ∧ stride.toNat ∣ bytes.length) ∧
      ∀ p offered, ofBytes? stride bytes = .ok p → (p.grown offered).byteSize < UInt64.size →
        ∃ chunks : List Bytes, chunks.flatten = bytes ∧ (p.grown offered).ListsChunks stride
          (chunks ++ offered.filter (·.length = stride.toNat)) := by
  refine ⟨exists_ofBytes?_iff, fun p offered hp hsize => ?_⟩
  obtain ⟨rfl, rfl⟩ := ofBytes?_eq_ok_iff.1 hp
  obtain ⟨hstride, hvalues⟩ := p.values_grown offered
  have hlists := listsChunks hsize
  rw [hstride, hvalues] at hlists
  exact ⟨p.values, p.flatten_values, hlists⟩

theorem lists_grown_mixed : ∃ p, ofBytes? 3 [1, 2, 3] = .ok p ∧
    ∃ chunks : List Bytes, chunks.flatten = [1, 2, 3] ∧
      (p.grown [[4, 5, 6], [7], [8, 9, 10]]).ListsChunks 3 (chunks ++ [[4, 5, 6], [8, 9, 10]]) := by
  have hp : ofBytes? 3 [1, 2, 3] = .ok _ := rfl
  exact ⟨_, hp, (lists_grown 3 [1, 2, 3]).2 _ _ hp (by decide)⟩

end GraphStore.Page
