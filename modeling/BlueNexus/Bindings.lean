import BlueNexus.Name
import BlueNexus.Value

/-!
# The variable table

The bound names with their values, in the order of the names. `get?_set` is the law of the table;
`get?_update` says that an update in place binds nothing.
-/

namespace BlueNexus

structure Bindings where
  entries : List (Name × Value) := []
  sorted : entries.Pairwise (fun a b => a.1 < b.1) := by simp
deriving DecidableEq

namespace Bindings

/-- Puts a binding in its place among sorted ones, over an older binding of the name. -/
def place (x : Name) (v : Value) : List (Name × Value) → List (Name × Value)
  | [] => [(x, v)]
  | e :: r =>
    if x = e.1 then (x, v) :: r
    else if x < e.1 then (x, v) :: e :: r
    else e :: place x v r

theorem mem_place {x : Name} {v : Value} {e : Name × Value} {r : List (Name × Value)}
    (h : e ∈ place x v r) : e = (x, v) ∨ e ∈ r := by
  induction r with
  | nil => simpa [place] using h
  | cons a r ih =>
    unfold place at h
    split at h
    · rcases List.mem_cons.1 h with rfl | h <;> simp [*]
    · split at h
      · simpa using h
      · rcases List.mem_cons.1 h with rfl | h
        · simp
        · rcases ih h with h | h <;> simp [h]

theorem pairwise_place (x : Name) (v : Value) {r : List (Name × Value)}
    (h : r.Pairwise fun a b => a.1 < b.1) : (place x v r).Pairwise fun a b => a.1 < b.1 := by
  induction r with
  | nil => simp [place]
  | cons a r ih =>
    obtain ⟨ha, hr⟩ := List.pairwise_cons.1 h
    unfold place
    split
    · next hx => exact List.pairwise_cons.2 ⟨fun b hb => by simpa [hx] using ha b hb, hr⟩
    · next hne =>
      split
      · next hlt =>
        refine List.pairwise_cons.2 ⟨fun b hb => ?_, h⟩
        rcases List.mem_cons.1 hb with rfl | hb
        · exact hlt
        · exact Name.lt_trans hlt (ha b hb)
      · next hnlt =>
        refine List.pairwise_cons.2 ⟨fun b hb => ?_, ih hr⟩
        rcases mem_place hb with rfl | hb
        · exact Name.lt_of_not_lt hnlt hne
        · exact ha b hb

def get? (x : Name) (t : Bindings) : Option Value :=
  (t.entries.find? (·.1 = x)).map (·.2)

def size (t : Bindings) : Nat := t.entries.length

def set (x : Name) (v : Value) (t : Bindings) : Bindings :=
  ⟨place x v t.entries, pairwise_place x v t.sorted⟩

/-- Changes the value of `x` in place, if it is bound. -/
def update (x : Name) (f : Value → Value) (t : Bindings) : Bindings :=
  match t.get? x with
  | none => t
  | some v => t.set x (f v)

def init (x : Name) (v : Value) (t : Bindings) : Bindings :=
  match t.get? x with
  | none => t.set x v
  | some _ => t

/-- A table before and after `x` may have been bound to an integer. -/
inductive Stores (x : Name) (t : Bindings) : Bindings → Prop
  | nothing : Stores x t t
  | scalar (n : Int64) : Stores x t (t.set x (.scalar n))

@[simp] theorem get?_set (x y : Name) (v : Value) (t : Bindings) :
    (t.set x v).get? y = if x = y then some v else t.get? y := by
  obtain ⟨r, hr⟩ := t
  simp only [set, get?]
  clear hr
  induction r with
  | nil => by_cases h : x = y <;> simp [place, h]
  | cons a r ih =>
    unfold place
    split
    · next hx => by_cases h : x = y <;> by_cases h' : a.1 = y <;> simp_all
    · split
      · by_cases h : x = y <;> simp [h]
      · by_cases h' : a.1 = y
        · have : x ≠ y := fun h => by simp_all
          simp [h', this]
        · simpa [h'] using ih

@[simp] theorem get?_update (x y : Name) (f : Value → Value) (t : Bindings) :
    (t.update x f).get? y = if x = y then (t.get? y).map f else t.get? y := by
  unfold update
  split
  · next h => by_cases hxy : x = y <;> simp_all
  · next h => by_cases hxy : x = y <;> simp_all

@[simp] theorem get?_init (x y : Name) (v : Value) (t : Bindings) :
    (t.init x v).get? y = if x = y then some ((t.get? y).getD v) else t.get? y := by
  unfold init
  split
  · next h => by_cases hxy : x = y <;> simp_all
  · next h => by_cases hxy : x = y <;> simp_all

theorem place_eq_self {x : Name} {v : Value} {r : List (Name × Value)}
    (hr : r.Pairwise fun a b => a.1 < b.1) (h : (x, v) ∈ r) : place x v r = r := by
  induction r with
  | nil => cases h
  | cons a r ih =>
    obtain ⟨ha, hr⟩ := List.pairwise_cons.1 hr
    obtain rfl | hmem := List.mem_cons.1 h
    · exact if_pos rfl
    · have hlt : a.1 < x := ha _ hmem
      have hne : x ≠ a.1 := by
        rintro rfl
        exact Name.lt_irrefl _ hlt
      have hnlt : ¬x < a.1 := fun hx => Name.lt_irrefl _ (Name.lt_trans hlt hx)
      simp only [place, if_neg hne, if_neg hnlt, ih hr hmem]

theorem mem_of_get?_eq_some {x : Name} {v : Value} {t : Bindings} (h : t.get? x = some v) :
    (x, v) ∈ t.entries := by
  obtain ⟨e, he, rfl⟩ := Option.map_eq_some_iff.1 h
  have hname : e.1 = x := by simpa using List.find?_some he
  rw [← hname]
  exact List.mem_of_find?_eq_some he

/-- A name that is bound again to its value leaves the table as it is. -/
@[simp] theorem set_eq_self {x : Name} {v : Value} {t : Bindings} (h : t.get? x = some v) :
    t.set x v = t := by
  obtain ⟨entries, hsorted⟩ := t
  simp only [set, mk.injEq]
  exact place_eq_self hsorted (mem_of_get?_eq_some h)

theorem update_of_get? {x : Name} {v : Value} {t : Bindings} (h : t.get? x = some v)
    (f : Value → Value) : t.update x f = t.set x (f v) := by
  rw [update, h]

@[simp] theorem update_eq_self {x : Name} {f : Value → Value} {t : Bindings}
    (hf : ∀ v, t.get? x = some v → f v = v) : t.update x f = t := by
  cases h : t.get? x with
  | none => rw [update, h]
  | some v => rw [update_of_get? h, hf v h, set_eq_self h]

end Bindings

end BlueNexus
