import FpgaQuaternions.Lib.Loop

/-!
# The server's normalisation of the recording

`test.py` reads a CSV of gyroscope samples (`parse`, `to_quaternion`) and divides
them by their largest absolute value (`norm`).  Lists of lists are Python's, floats
are exact rationals, an index out of range or a division by zero is an error.

`norm` takes the maximum over, and scales, the first `int(n / 4)` of the `n` rows
and the columns `range(1, 3)`, that is x and y:

    norm ([] :: rows) = the first n / 4 rows with x, y divided by the maximum found there
                                                                     (norm_eq, norm_zero)
    it normalises the data set only if what it skips needs no scaling  (norm_correct_iff)
    it divides by zero if those rows are all zero in x and y           (norm_returns_iff)
-/

namespace FpgaQuat.Server

open Loop

inductive PyError where
  | indexError
  | valueError
  | zeroDivisionError
deriving DecidableEq, Repr

abbrev Rows := List (List ℚ)

variable {σ : Type}

/-- `data[i][j]`. -/
def getItem (data : Rows) (i j : Nat) : Except PyError ℚ :=
  match data[i]? with
  | none => .error .indexError
  | some row =>
    match row[j]? with
    | none => .error .indexError
    | some x => .ok x

/-- `data[i][j] = x`. -/
def setItem (data : Rows) (i j : Nat) (x : ℚ) : Except PyError Rows :=
  match data[i]? with
  | none => .error .indexError
  | some row => if j < row.length then .ok (data.set i (row.set j x)) else .error .indexError

/-- `x / y`. -/
def divide (x y : ℚ) : Except PyError ℚ :=
  if y = 0 then .error .zeroDivisionError else .ok (x / y)

/-! ## The functions of test.py -/

/-- One line of the file; `float` is Python's, `none` where it raises `ValueError`. -/
def parse (float : String → Option ℚ) (data : String) : Except PyError (List ℚ) :=
  let splited := data.splitOn ","
  if 4 < splited.length then
    (splited.eraseIdx 4).mapM fun i =>
      match float i with
      | none => .error .valueError
      | some x => .ok x
  else .error .indexError

def maxLoop (data : Rows) : Except PyError ℚ :=
  forRange 0 (data.length / 4)
    (fun max i => forRange 1 3
      (fun max j => do
        let x ← getItem data i j
        if |x| > max then .ok |x| else .ok max) max) 0

def divLoop (max : ℚ) (data : Rows) : Except PyError Rows :=
  forRange 0 (data.length / 4)
    (fun data i => forRange 1 3
      (fun data j => do
        let x ← getItem data i j
        let y ← divide x max
        setItem data i j y) data) data

def norm (data : Rows) : Except PyError Rows :=
  match data with
  | [] => .error .indexError
  | _ :: data => do
    let max ← maxLoop data
    divLoop max data

/-- The lines of the file, its header first. -/
def toQuaternion (float : String → Option ℚ) (lines : List String) : Except PyError Rows :=
  match lines with
  | [] => .error .indexError
  | _ :: lines => do
    let rows ← lines.mapM (parse float)
    norm ([] :: rows)

/-! ## Rows of four numbers -/

/-- A sample of the recording: time stamp and the three axes. -/
structure Sample where
  t : ℚ
  x : ℚ
  y : ℚ
  z : ℚ
deriving DecidableEq, Repr

namespace Sample

def row (r : Sample) : List ℚ := [r.t, r.x, r.y, r.z]

def scale (m : ℚ) (r : Sample) : Sample := ⟨r.t, r.x / m, r.y / m, r.z / m⟩

/-- What `norm` does to a row it visits. -/
def scaleXY (m : ℚ) (r : Sample) : Sample := { r with x := r.x / m, y := r.y / m }

theorem row_inj {r s : Sample} : r.row = s.row ↔ r = s := by
  obtain ⟨t, x, y, z⟩ := r
  obtain ⟨t', x', y', z'⟩ := s
  simp [row]

end Sample

/-- A line loses its last column. -/
theorem parse_length {float : String → Option ℚ} {data : String} {row : List ℚ}
    (h : parse float data = .ok row) : 5 ≤ (data.splitOn ",").length ∧
      row.length + 1 = (data.splitOn ",").length := by
  unfold parse at h
  dsimp only at h
  split at h
  · next hlen =>
    rw [length_of_mapM_ok h, List.length_eraseIdx_of_lt hlen]
    omega
  · cases h

/-- Lines of five columns are samples. -/
theorem mapM_parse {float : String → Option ℚ} {lines : List String} {rows : Rows}
    (hl : ∀ line ∈ lines, (line.splitOn ",").length = 5) (h : lines.mapM (parse float) = .ok rows) :
    ∃ rs : List Sample, rows = rs.map Sample.row ∧ rs.length = lines.length := by
  induction lines generalizing rows with
  | nil => cases h; exact ⟨[], rfl, rfl⟩
  | cons line lines ih =>
    obtain ⟨row, rows', hrow, hrows, rfl⟩ := mapM_cons_ok h
    obtain ⟨rs, rfl, hlen⟩ := ih (fun l hl' => hl l (List.mem_cons_of_mem _ hl')) hrows
    have h4 : row.length = 4 := by
      have := (parse_length hrow).2
      rw [hl line List.mem_cons_self] at this
      omega
    obtain ⟨t, x, y, z, rfl⟩ := List.length_eq_four.mp h4
    exact ⟨⟨t, x, y, z⟩ :: rs, rfl, by rw [List.length_cons, List.length_cons, hlen]⟩

/-- **What `norm` is given**: a placeholder and one sample a line. -/
theorem toQuaternion_eq {float : String → Option ℚ} (header : String) {lines : List String} {rows : Rows}
    (hl : ∀ line ∈ lines, (line.splitOn ",").length = 5) (h : lines.mapM (parse float) = .ok rows) :
    ∃ rs : List Sample, rs.length = lines.length ∧
      toQuaternion float (header :: lines) = norm ([] :: rs.map Sample.row) := by
  obtain ⟨rs, rfl, hlen⟩ := mapM_parse hl h
  refine ⟨rs, hlen, ?_⟩
  rw [toQuaternion, h]
  rfl

/-- The largest absolute value in a list, or 0. -/
def maxAbs (xs : List ℚ) : ℚ := xs.foldl (fun m x => max m |x|) 0

def peak (rs : List Sample) : ℚ := maxAbs (rs.flatMap fun r => [r.x, r.y, r.z])

def peakXY (rs : List Sample) : ℚ := maxAbs (rs.flatMap fun r => [r.x, r.y])

theorem maxAbs_concat (xs : List ℚ) (x : ℚ) : maxAbs (xs ++ [x]) = max (maxAbs xs) |x| := by
  rw [maxAbs, List.foldl_append]; rfl

theorem le_maxAbs (xs : List ℚ) (x : ℚ) (hx : x ∈ xs) : |x| ≤ maxAbs xs := by
  induction xs using List.reverseRecOn with
  | nil => cases hx
  | append_singleton xs y ih =>
    rw [maxAbs_concat]
    rcases List.mem_append.mp hx with h | h
    · exact (ih h).trans (le_max_left _ _)
    · rw [List.mem_singleton.mp h]; exact le_max_right _ _

theorem maxAbs_attained (xs : List ℚ) : maxAbs xs = 0 ∨ ∃ x ∈ xs, |x| = maxAbs xs := by
  induction xs using List.reverseRecOn with
  | nil => exact Or.inl rfl
  | append_singleton xs y ih =>
    rw [maxAbs_concat]
    rcases max_choice (maxAbs xs) |y| with h | h
    · rw [h]
      rcases ih with h0 | ⟨x, hx, he⟩
      · exact Or.inl h0
      · exact Or.inr ⟨x, List.mem_append_left _ hx, he⟩
    · rw [h]; exact Or.inr ⟨y, by simp, rfl⟩

theorem getItem_row (rs : List Sample) (i : Nat) (hi : i < rs.length) :
    getItem (rs.map Sample.row) i 1 = .ok rs[i].x ∧ getItem (rs.map Sample.row) i 2 = .ok rs[i].y := by
  simp [getItem, hi, Sample.row]

theorem ite_gt_eq_max (x m : ℚ) :
    (if |x| > m then .ok |x| else .ok m : Except PyError ℚ) = .ok (max m |x|) := by
  split
  · next h => rw [max_eq_right h.le]
  · next h => rw [max_eq_left (le_of_not_gt h)]

theorem forRange_axes (body : σ → Nat → Except PyError σ) (s : σ) :
    forRange 1 3 body s = body s 1 >>= fun s => body s 2 := by
  simp [forRange, List.range']

theorem ok_bind {α β : Type} (a : α) (f : α → Except PyError β) : (Except.ok a >>= f) = f a := rfl

/-- The first pass: the maximum over the rows and columns it visits. -/
theorem maxLoop_eq (rs : List Sample) :
    maxLoop (rs.map Sample.row) = .ok (peakXY (rs.take (rs.length / 4))) := by
  have hlen : (rs.map Sample.row).length / 4 = rs.length / 4 := by rw [List.length_map]
  rw [maxLoop, hlen]
  apply forRange_ok (Nat.zero_le _) (fun i => peakXY (rs.take i))
  intro i _ hi
  have hi' : i < rs.length := by omega
  obtain ⟨hx, hy⟩ := getItem_row rs i hi'
  have hstep : peakXY (rs.take (i + 1)) = max (max (peakXY (rs.take i)) |rs[i].x|) |rs[i].y| := by
    rw [peakXY, List.take_succ_eq_append_getElem hi', List.flatMap_append, List.flatMap_singleton,
      ← List.singleton_append, ← List.append_assoc, maxAbs_concat, maxAbs_concat]
    rfl
  rw [hstep, forRange_axes, hx, ok_bind, ite_gt_eq_max, ok_bind, hy, ok_bind, ite_gt_eq_max]

/-- The rows after the second pass has visited the first `i`. -/
def scaledTo (m : ℚ) (i : Nat) (rs : List Sample) : List Sample :=
  (rs.take i).map (Sample.scaleXY m) ++ rs.drop i

theorem scaledTo_succ (m : ℚ) (i : Nat) (rs : List Sample) (hi : i < rs.length) :
    scaledTo m i rs = (rs.take i).map (Sample.scaleXY m) ++ rs[i] :: rs.drop (i + 1) ∧
      scaledTo m (i + 1) rs =
        (rs.take i).map (Sample.scaleXY m) ++ rs[i].scaleXY m :: rs.drop (i + 1) := by
  constructor
  · rw [scaledTo, List.drop_eq_getElem_cons hi]
  · rw [scaledTo, List.take_succ_eq_append_getElem hi, List.map_append, List.append_assoc]
    rfl

theorem getItem_append (as bs : Rows) (row : List ℚ) (j : Nat) (x : ℚ) (h : row[j]? = some x) :
    getItem (as ++ row :: bs) as.length j = .ok x := by
  simp [getItem, h]

theorem setItem_append (as bs : Rows) (row : List ℚ) (j : Nat) (x : ℚ) (h : j < row.length) :
    setItem (as ++ row :: bs) as.length j x = .ok (as ++ row.set j x :: bs) := by
  simp [setItem, h]

/-- The second pass, its divisor not zero. -/
theorem divLoop_eq (rs : List Sample) (m : ℚ) (hm : m ≠ 0) :
    divLoop m (rs.map Sample.row) = .ok ((scaledTo m (rs.length / 4) rs).map Sample.row) := by
  have hlen : (rs.map Sample.row).length / 4 = rs.length / 4 := by rw [List.length_map]
  rw [divLoop, hlen]
  apply forRange_ok (Nat.zero_le _) (fun i => (scaledTo m i rs).map Sample.row)
  intro i _ hi
  have hi' : i < rs.length := by omega
  obtain ⟨h0, h1⟩ := scaledTo_succ m i rs hi'
  have hpos : (((rs.take i).map (Sample.scaleXY m)).map Sample.row).length = i := by
    simp; omega
  have hdiv : ∀ x, divide x m = .ok (x / m) := fun x => if_neg hm
  rw [h0, h1, forRange_axes]
  simp only [List.map_append, List.map_cons]
  generalize ((rs.take i).map (Sample.scaleXY m)).map Sample.row = as at hpos ⊢
  generalize (rs.drop (i + 1)).map Sample.row = bs
  subst hpos
  rw [getItem_append as bs _ 1 rs[as.length].x rfl, ok_bind, hdiv, ok_bind,
    setItem_append as bs _ 1 _ (by simp [Sample.row]), ok_bind,
    getItem_append as bs _ 2 rs[as.length].y rfl, ok_bind, hdiv, ok_bind,
    setItem_append as bs _ 2 _ (by simp [Sample.row])]
  rfl

/-- The second pass divides by zero if it visits a row and the maximum is zero. -/
theorem divLoop_zero (rs : List Sample) (h : 0 < rs.length / 4) :
    divLoop 0 (rs.map Sample.row) = .error .zeroDivisionError := by
  have hlen : (rs.map Sample.row).length / 4 = rs.length / 4 := by rw [List.length_map]
  rw [divLoop, hlen]
  apply forRange_error h
  rw [forRange_axes, (getItem_row rs 0 (by omega)).1]
  rfl

/-! ## What norm computes -/

theorem norm_eq (rs : List Sample) (p : List ℚ)
    (h : peakXY (rs.take (rs.length / 4)) ≠ 0 ∨ rs.length / 4 = 0) :
    norm (p :: rs.map Sample.row) =
      .ok ((scaledTo (peakXY (rs.take (rs.length / 4))) (rs.length / 4) rs).map Sample.row) := by
  rw [norm, maxLoop_eq, ok_bind]
  by_cases hm : peakXY (rs.take (rs.length / 4)) = 0
  · have h0 : rs.length / 4 = 0 := by tauto
    rw [divLoop, List.length_map, h0, forRange_of_le (Nat.le_refl _)]
    rfl
  · exact divLoop_eq rs _ hm

theorem norm_zero (rs : List Sample) (p : List ℚ)
    (h : peakXY (rs.take (rs.length / 4)) = 0) (h0 : 0 < rs.length / 4) :
    norm (p :: rs.map Sample.row) = .error .zeroDivisionError := by
  rw [norm, maxLoop_eq, ok_bind, h]
  exact divLoop_zero rs h0

/-! ## When it normalises the data set -/

theorem scaleXY_eq_scale_iff (m M : ℚ) (r : Sample) :
    r.scaleXY m = r.scale M ↔ r.x / m = r.x / M ∧ r.y / m = r.y / M ∧ r.z = r.z / M := by
  simp [Sample.scaleXY, Sample.scale]

theorem eq_scale_iff (M : ℚ) (r : Sample) :
    r = r.scale M ↔ r.x = r.x / M ∧ r.y = r.y / M ∧ r.z = r.z / M := by
  conv_lhs => lhs; rw [show r = ⟨r.t, r.x, r.y, r.z⟩ from rfl]
  simp [Sample.scale]

theorem scaledTo_eq_iff (m M : ℚ) (k : Nat) (rs : List Sample) :
    scaledTo m k rs = rs.map (Sample.scale M) ↔
      (∀ r ∈ rs.take k, r.scaleXY m = r.scale M) ∧ ∀ r ∈ rs.drop k, r = r.scale M := by
  have hsplit : rs.map (Sample.scale M) =
      (rs.take k).map (Sample.scale M) ++ (rs.drop k).map (Sample.scale M) := by
    rw [← List.map_append, List.take_append_drop]
  rw [scaledTo, hsplit]
  constructor
  · intro h
    obtain ⟨h1, h2⟩ := List.append_inj h (by simp)
    refine ⟨List.map_inj_left.mp h1, ?_⟩
    nth_rewrite 1 [← List.map_id (rs.drop k)] at h2
    exact List.map_inj_left.mp h2
  · rintro ⟨h1, h2⟩
    rw [List.map_congr_left h1]
    congr 1
    nth_rewrite 1 [← List.map_id (rs.drop k)]
    exact List.map_congr_left h2

theorem eq_div_iff_zero {x M : ℚ} (h0 : M ≠ 0) (h1 : M ≠ 1) : x = x / M ↔ x = 0 := by
  constructor
  · intro h
    rw [eq_div_iff h0] at h
    by_contra hx
    exact h1 (mul_left_cancel₀ hx (by rw [h, mul_one]))
  · intro h; simp [h]

theorem le_maxAbs_flatMap (f : Sample → List ℚ) {rs : List Sample} {r : Sample} (hr : r ∈ rs) {v : ℚ}
    (hv : v ∈ f r) : |v| ≤ maxAbs (rs.flatMap f) :=
  le_maxAbs _ v (List.mem_flatMap.mpr ⟨r, hr, hv⟩)

theorem maxAbs_flatMap_attained (f : Sample → List ℚ) (rs : List Sample)
    (h : maxAbs (rs.flatMap f) ≠ 0) : ∃ r ∈ rs, ∃ v ∈ f r, |v| = maxAbs (rs.flatMap f) := by
  obtain ⟨v, hv, he⟩ := (maxAbs_attained (rs.flatMap f)).resolve_left h
  obtain ⟨r, hr, hv⟩ := List.mem_flatMap.mp hv
  exact ⟨r, hr, v, hv, he⟩

theorem le_peakXY (rs : List Sample) (r : Sample) (hr : r ∈ rs) :
    |r.x| ≤ peakXY rs ∧ |r.y| ≤ peakXY rs :=
  ⟨le_maxAbs_flatMap _ hr (by simp), le_maxAbs_flatMap _ hr (by simp)⟩

theorem le_peak (rs : List Sample) (r : Sample) (hr : r ∈ rs) :
    |r.x| ≤ peak rs ∧ |r.y| ≤ peak rs ∧ |r.z| ≤ peak rs :=
  ⟨le_maxAbs_flatMap _ hr (by simp), le_maxAbs_flatMap _ hr (by simp),
    le_maxAbs_flatMap _ hr (by simp)⟩

theorem peakXY_attained (rs : List Sample) (h : peakXY rs ≠ 0) :
    ∃ r ∈ rs, |r.x| = peakXY rs ∨ |r.y| = peakXY rs := by
  obtain ⟨r, hr, v, hv, he⟩ := maxAbs_flatMap_attained _ rs h
  refine ⟨r, hr, ?_⟩
  rcases List.mem_pair.mp hv with rfl | rfl
  · exact Or.inl he
  · exact Or.inr he

theorem peak_attained (rs : List Sample) (h : peak rs ≠ 0) :
    ∃ r ∈ rs, |r.x| = peak rs ∨ |r.y| = peak rs ∨ |r.z| = peak rs := by
  obtain ⟨r, hr, v, hv, he⟩ := maxAbs_flatMap_attained _ rs h
  refine ⟨r, hr, ?_⟩
  simp only [List.mem_cons, List.not_mem_nil, or_false] at hv
  rcases hv with rfl | rfl | rfl
  · exact Or.inl he
  · exact Or.inr (Or.inl he)
  · exact Or.inr (Or.inr he)

theorem peak_ne_zero (rs : List Sample) (h : ∃ r ∈ rs, r.x ≠ 0 ∨ r.y ≠ 0 ∨ r.z ≠ 0) : peak rs ≠ 0 := by
  obtain ⟨r, hr, h⟩ := h
  obtain ⟨hx, hy, hz⟩ := le_peak rs r hr
  intro h0
  rw [h0, abs_nonpos_iff] at hx hy hz
  tauto

/-- If the loops skip zeros only, the maximum they find is that of the data set. -/
theorem peakXY_take_eq_peak (rs : List Sample) (k : Nat) (hz : ∀ r ∈ rs, r.z = 0)
    (hd : ∀ r ∈ rs.drop k, r.x = 0 ∧ r.y = 0) (h : peak rs ≠ 0) : peakXY (rs.take k) = peak rs := by
  apply le_antisymm
  · by_cases h0 : peakXY (rs.take k) = 0
    · rw [h0]
      obtain ⟨r, hr, -⟩ := peak_attained rs h
      exact (abs_nonneg _).trans (le_peak rs r hr).1
    · obtain ⟨r, hr, he⟩ := peakXY_attained _ h0
      have := le_peak rs r (List.mem_of_mem_take hr)
      rcases he with he | he
      · rw [← he]; exact this.1
      · rw [← he]; exact this.2.1
  · obtain ⟨r, hr, he⟩ := peak_attained rs h
    have hmem : r ∈ rs.take k := by
      rw [← List.take_append_drop k rs] at hr
      rcases List.mem_append.mp hr with hr | hr
      · exact hr
      · obtain ⟨hx, hy⟩ := hd r hr
        rw [hx, hy, hz r (List.mem_of_mem_drop hr), abs_zero] at he
        tauto
    obtain ⟨hx, hy⟩ := le_peakXY _ r hmem
    rw [hz r hr, abs_zero] at he
    rcases he with he | he | he
    · rw [← he]; exact hx
    · rw [← he]; exact hy
    · exact absurd he.symm h

/-- A division that keeps the entry of the largest size divides by 1. -/
theorem eq_one_of_div_eq {v m : ℚ} (hm : m ≠ 0) (h : v / m = v) (hv : |v| = m) : m = 1 := by
  have hv0 : v ≠ 0 := by rintro rfl; exact hm (hv.symm.trans abs_zero)
  by_contra hne
  exact hv0 ((eq_div_iff_zero hm hne).mp h.symm)

/-- Where the division succeeds. -/
theorem scaledTo_peak_iff (rs : List Sample) (k : Nat) (hM : peak rs ≠ 0)
    (hok : peakXY (rs.take k) ≠ 0 ∨ k = 0) :
    scaledTo (peakXY (rs.take k)) k rs = rs.map (Sample.scale (peak rs)) ↔
      (peak rs = 1 ∧ (k = 0 ∨ peakXY (rs.take k) = 1)) ∨
      ((∀ r ∈ rs, r.z = 0) ∧ ∀ r ∈ rs.drop k, r.x = 0 ∧ r.y = 0) := by
  rw [scaledTo_eq_iff]
  simp only [scaleXY_eq_scale_iff, eq_scale_iff]
  constructor
  · rintro ⟨ht, hd⟩
    by_cases h1 : peak rs = 1
    · refine Or.inl ⟨h1, ?_⟩
      rcases hok with h0 | h0
      · -- the entry that attains the maximum is kept
        obtain ⟨r, hr, he⟩ := peakXY_attained _ h0
        obtain ⟨hx, hy, -⟩ := ht r hr
        rw [h1, div_one] at hx hy
        rcases he with he | he
        · exact Or.inr (eq_one_of_div_eq h0 hx he)
        · exact Or.inr (eq_one_of_div_eq h0 hy he)
      · exact Or.inl h0
    · refine Or.inr ⟨fun r hr => ?_, fun r hr => ?_⟩
      · rw [← List.take_append_drop k rs] at hr
        rcases List.mem_append.mp hr with hr | hr
        · exact (eq_div_iff_zero hM h1).mp (ht r hr).2.2
        · exact (eq_div_iff_zero hM h1).mp (hd r hr).2.2
      · obtain ⟨hx, hy, -⟩ := hd r hr
        exact ⟨(eq_div_iff_zero hM h1).mp hx, (eq_div_iff_zero hM h1).mp hy⟩
  · rintro (⟨h1, hk⟩ | ⟨hz, hd⟩)
    · rw [h1]
      refine ⟨fun r hr => ?_, fun r _ => by simp⟩
      rcases hk with rfl | hk
      · rw [List.take_zero] at hr; cases hr
      · rw [hk]; simp
    · rw [peakXY_take_eq_peak rs k hz hd hM]
      refine ⟨fun r hr => ?_, fun r hr => ?_⟩
      · rw [hz r (List.mem_of_mem_take hr)]; simp
      · obtain ⟨hx, hy⟩ := hd r hr
        rw [hx, hy, hz r (List.mem_of_mem_drop hr)]
        simp

/-- **When norm normalises the data set.**  For a recording that is not all zeros, `norm`
returns every row divided by the largest absolute value `M` exactly if either `M` is 1 and
so is the maximum over the first quarter of the rows (or there is no row in it), or every
entry the loops skip is zero: all of z, and x and y past the first quarter. -/
theorem norm_correct_iff (rs : List Sample) (p : List ℚ)
    (h : ∃ r ∈ rs, r.x ≠ 0 ∨ r.y ≠ 0 ∨ r.z ≠ 0) :
    norm (p :: rs.map Sample.row) = .ok ((rs.map (Sample.scale (peak rs))).map Sample.row) ↔
      (peak rs = 1 ∧ (rs.length / 4 = 0 ∨ peakXY (rs.take (rs.length / 4)) = 1)) ∨
      ((∀ r ∈ rs, r.z = 0) ∧ ∀ r ∈ rs.drop (rs.length / 4), r.x = 0 ∧ r.y = 0) := by
  have hM := peak_ne_zero rs h
  have hinj : Function.Injective Sample.row := fun r s => Sample.row_inj.mp
  by_cases hzero : peakXY (rs.take (rs.length / 4)) = 0 ∧ 0 < rs.length / 4
  · rw [norm_zero rs p hzero.1 hzero.2]
    refine iff_of_false (by simp) ?_
    rintro (⟨-, h1 | h1⟩ | ⟨hz, hd⟩)
    · omega
    · rw [hzero.1] at h1; norm_num at h1
    · exact hM ((peakXY_take_eq_peak rs _ hz hd hM).symm.trans hzero.1)
  · have hok : peakXY (rs.take (rs.length / 4)) ≠ 0 ∨ rs.length / 4 = 0 := by
      by_cases h0 : peakXY (rs.take (rs.length / 4)) = 0
      · exact Or.inr (by by_contra hk; exact hzero ⟨h0, by omega⟩)
      · exact Or.inl h0
    rw [norm_eq rs p hok, Except.ok.injEq, (List.map_injective_iff.mpr hinj).eq_iff]
    exact scaledTo_peak_iff rs _ hM hok

/-- Four samples at rest but for one axis of the first. -/
theorem norm_correct_first_row :
    norm ([] :: [Sample.mk 0 2 1 0, ⟨1, 0, 0, 0⟩, ⟨2, 0, 0, 0⟩, ⟨3, 0, 0, 0⟩].map Sample.row) =
      .ok (([Sample.mk 0 2 1 0, ⟨1, 0, 0, 0⟩, ⟨2, 0, 0, 0⟩, ⟨3, 0, 0, 0⟩].map (Sample.scale
        (peak [Sample.mk 0 2 1 0, ⟨1, 0, 0, 0⟩, ⟨2, 0, 0, 0⟩, ⟨3, 0, 0, 0⟩]))).map Sample.row) :=
  (norm_correct_iff _ [] ⟨⟨0, 2, 1, 0⟩, by simp, by norm_num⟩).mpr (Or.inr (by simp))

/-- One sample: nothing is scaled. -/
theorem norm_single_unscaled :
    norm ([] :: [Sample.mk 0 2 1 4].map Sample.row) ≠
      .ok (([Sample.mk 0 2 1 4].map (Sample.scale (peak [⟨0, 2, 1, 4⟩]))).map Sample.row) := by
  decide +kernel

/-! ## When it returns -/

theorem peakXY_ne_zero_iff (rs : List Sample) : peakXY rs ≠ 0 ↔ ∃ r ∈ rs, r.x ≠ 0 ∨ r.y ≠ 0 := by
  constructor
  · intro h
    obtain ⟨r, hr, he⟩ := peakXY_attained rs h
    refine ⟨r, hr, ?_⟩
    rcases he with he | he
    · exact Or.inl (abs_ne_zero.mp (he ▸ h))
    · exact Or.inr (abs_ne_zero.mp (he ▸ h))
  · rintro ⟨r, hr, h⟩ h0
    obtain ⟨hx, hy⟩ := le_peakXY rs r hr
    rw [h0, abs_nonpos_iff] at hx hy
    tauto

/-- **When norm divides by zero.**  It returns exactly if the first quarter of the rows is empty or
has an x or y other than zero; in every other recording a division has the divisor zero. -/
theorem norm_returns_iff (rs : List Sample) (p : List ℚ) :
    ((∃ data, norm (p :: rs.map Sample.row) = .ok data) ↔
      rs.length / 4 = 0 ∨ ∃ r ∈ rs.take (rs.length / 4), r.x ≠ 0 ∨ r.y ≠ 0) ∧
    (norm (p :: rs.map Sample.row) = .error .zeroDivisionError ↔
      ¬ (rs.length / 4 = 0 ∨ ∃ r ∈ rs.take (rs.length / 4), r.x ≠ 0 ∨ r.y ≠ 0)) := by
  rw [← peakXY_ne_zero_iff]
  by_cases h : rs.length / 4 = 0 ∨ peakXY (rs.take (rs.length / 4)) ≠ 0
  · have hok := norm_eq rs p h.symm
    exact ⟨iff_of_true ⟨_, hok⟩ h, iff_of_false (by rw [hok]; simp) (not_not_intro h)⟩
  · obtain ⟨h0, hm⟩ := not_or.mp h
    have herr := norm_zero rs p (not_not.mp hm) (Nat.pos_of_ne_zero h0)
    exact ⟨iff_of_false (by rw [herr]; simp) h, iff_of_true herr h⟩

/-- Four samples of a phone that lies still. -/
theorem norm_still_divides_by_zero :
    ¬ ∃ data, norm ([] :: [Sample.mk 0 0 0 0, ⟨1, 0, 0, 0⟩, ⟨2, 0, 0, 0⟩, ⟨3, 0, 0, 0⟩].map Sample.row) =
      .ok data := by
  rintro ⟨data, h⟩
  revert h
  have he : norm ([] :: [Sample.mk 0 0 0 0, ⟨1, 0, 0, 0⟩, ⟨2, 0, 0, 0⟩, ⟨3, 0, 0, 0⟩].map Sample.row) =
      .error .zeroDivisionError := by decide +kernel
  rw [he]
  simp

end FpgaQuat.Server
