import Mathlib

/-!
# Vectors of std_logic

A vector is a word, or undefined where one of its elements is `U` or `X`.  Arithmetic
on an undefined vector is undefined; a comparison with it is false.  What is cut out of
an undefined vector, or joined with one, counts as undefined too.

The logic operators are not strict: `0 and X` is `0` and `1 or X` is `1`.
-/

namespace StdLogic

/-- A `std_logic_vector`, `none` where it holds `U` or `X`. -/
abbrev Vec (w : Nat) := Option (BitVec w)

/-- A `std_logic`, `none` for `U` and `X`. -/
abbrev Bit := Option Bool

/-! ## Logic -/

def lnot (a : Bit) : Bit := a.map fun a => !a

def land (a b : Bit) : Bit :=
  if a = some false ∨ b = some false then some false else Option.map₂ (fun a b => a && b) a b

def lor (a b : Bit) : Bit :=
  if a = some true ∨ b = some true then some true else Option.map₂ (fun a b => a || b) a b

def lxor (a b : Bit) : Bit := Option.map₂ (fun a b => a ^^ b) a b

variable {m n w : Nat}

def orReduce (v : Vec w) : Bit := v.map fun v => v != 0

def andReduce (v : Vec w) : Bit := v.map fun v => v == BitVec.allOnes w

/-! ## Vectors -/

/-- A literal. -/
instance (k : Nat) : OfNat (Vec w) k := ⟨some (BitVec.ofNat w k)⟩

instance : Add (Vec w) := ⟨Option.map₂ fun a b => a + b⟩

instance : Sub (Vec w) := ⟨Option.map₂ fun a b => a - b⟩

/-- `&`. -/
instance : HAppend (Vec m) (Vec n) (Vec (m + n)) := ⟨Option.map₂ fun a b => a ++ b⟩

/-- The product of two vectors is as long as both. -/
def mult (a : Vec m) (b : Vec n) : Vec (m + n) :=
  Option.map₂ (fun a b => a.setWidth (m + n) * b.setWidth (m + n)) a b

/-- The length of `hi downto lo`. -/
abbrev range (hi lo : Nat) : Nat := hi - lo + 1

/-- `v(hi downto lo)`. -/
def slice (v : Vec w) (hi lo : Nat) : Vec (range hi lo) := v.map fun v => v.extractLsb hi lo

/-- `v(i)`. -/
def bit (v : Vec w) (i : Nat) : Bit := v.map fun v => v.getLsbD i

/-- A bit as a vector of length one. -/
def ofBit (b : Bit) : Vec 1 := b.map BitVec.ofBool

/-- A bit added to a vector or taken from it. -/
def ext (b : Bit) : Vec w := b.map fun b => (BitVec.ofBool b).setWidth w

def shr (v : Vec m) (count : Vec n) : Vec m := Option.map₂ (fun v count => v >>> count.toNat) v count

def shl (v : Vec m) (count : Vec n) : Vec m := Option.map₂ (fun v count => v <<< count.toNat) v count

/-- `a > b`. -/
def gt : Vec m → Vec n → Bool
  | some a, some b => decide (b.toNat < a.toNat)
  | _, _ => false

theorem some_eq_ofNat (v : BitVec w) (k : Nat) : some v = no_index (OfNat.ofNat k : Vec w) ↔ v = OfNat.ofNat k :=
  Option.some_inj

/-! ## What is defined -/

section
variable {a b : Bit} {u v : Vec w} {x : Vec m} {y : Vec n}

theorem isSome_map₂ {α β γ : Type} (f : α → β → γ) (s : Option α) (t : Option β) :
    (Option.map₂ f s t).isSome = (s.isSome && t.isSome) := by
  cases s <;> cases t <;> rfl

@[simp] theorem isSome_lnot : (lnot a).isSome = a.isSome := Option.isSome_map

@[simp] theorem isSome_land : (land a b).isSome = (a.isSome && b.isSome || (a = some false ∨ b = some false)) := by
  unfold land
  split
  next h => simp [h]
  next h => simp [h, isSome_map₂]

@[simp] theorem isSome_lor : (lor a b).isSome = (a.isSome && b.isSome || (a = some true ∨ b = some true)) := by
  unfold lor
  split
  next h => simp [h]
  next h => simp [h, isSome_map₂]

@[simp] theorem isSome_lxor : (lxor a b).isSome = (a.isSome && b.isSome) := isSome_map₂ _ _ _

@[simp] theorem isSome_orReduce : (orReduce v).isSome = v.isSome := Option.isSome_map

-- the width of a term is not always written as that of the lemma
@[simp] theorem isSome_ofNat (k : Nat) : Option.isSome (no_index (OfNat.ofNat k : Vec w)) := rfl

@[simp] theorem isSome_add : (u + v).isSome = (u.isSome && v.isSome) := isSome_map₂ _ _ _

@[simp] theorem isSome_sub : (u - v).isSome = (u.isSome && v.isSome) := isSome_map₂ _ _ _

@[simp] theorem isSome_append :
    @Option.isSome (no_index (BitVec (m + n))) (@HAppend.hAppend _ _ (no_index (Vec (m + n))) _ x y) =
      (x.isSome && y.isSome) :=
  isSome_map₂ _ _ _

@[simp] theorem isSome_mult :
    @Option.isSome (no_index (BitVec (m + n))) (mult x y) = (x.isSome && y.isSome) :=
  isSome_map₂ _ _ _

@[simp] theorem isSome_slice (hi lo : Nat) : (slice v hi lo).isSome = v.isSome := Option.isSome_map

@[simp] theorem isSome_bit (i : Nat) : (bit v i).isSome = v.isSome := Option.isSome_map

@[simp] theorem isSome_ofBit : (ofBit a).isSome = a.isSome := Option.isSome_map

@[simp] theorem isSome_ext : (ext a : Vec w).isSome = a.isSome := Option.isSome_map

@[simp] theorem isSome_shr : (shr x y).isSome = (x.isSome && y.isSome) := isSome_map₂ _ _ _

@[simp] theorem isSome_shl : (shl x y).isSome = (x.isSome && y.isSome) := isSome_map₂ _ _ _

/-- Whichever branch is taken. -/
@[simp] theorem isSome_ite {α : Type} {p : Prop} [Decidable p] {s t : Option α} :
    (if p then s else t).isSome = if p then s.isSome else t.isSome :=
  apply_ite _ _ _ _

/-- Three vectors assigned together. -/
def AllSome {k : Nat} (t : Vec m × Vec n × Vec k) : Prop := t.1.isSome ∧ t.2.1.isSome ∧ t.2.2.isSome

theorem AllSome.ite {k : Nat} {p : Prop} [Decidable p] {t t' : Vec m × Vec n × Vec k} (h : AllSome t)
    (h' : AllSome t') : AllSome (if p then t else t') := by
  split
  · exact h
  · exact h'

/-! ## What is not -/

@[simp] theorem add_none : u + none = none := Option.map₂_none_right _ _

@[simp] theorem none_add : none + v = none := rfl

@[simp] theorem sub_none : u - none = none := Option.map₂_none_right _ _

@[simp] theorem none_sub : none - v = none := rfl

@[simp] theorem append_none : @HAppend.hAppend _ _ (no_index (Vec (m + n))) _ x (none : Vec n) = none :=
  Option.map₂_none_right _ _

@[simp] theorem none_append : @HAppend.hAppend _ _ (no_index (Vec (m + n))) _ (none : Vec m) y = none := rfl

@[simp] theorem none_ne_ofNat (k : Nat) : ¬ (none : Vec w) = no_index (OfNat.ofNat k) := Option.some_ne_none _ ∘ Eq.symm

@[simp] theorem slice_none (hi lo : Nat) : slice (none : Vec w) hi lo = none := rfl

@[simp] theorem bit_none (i : Nat) : bit (none : Vec w) i = none := rfl

@[simp] theorem ofBit_none : ofBit none = none := rfl

@[simp] theorem shr_none_left : shr (none : Vec m) y = none := rfl

@[simp] theorem shl_none_left : shl (none : Vec m) y = none := rfl

end

end StdLogic
