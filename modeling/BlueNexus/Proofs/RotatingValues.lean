import BlueNexus.Value
import Mathlib.Data.List.Rotate

/-!
# Rotation of values

A sequence turns by one place whether it is read or rotated (`after_eq_rotate`), and a turn is a
rotation of the list of its elements. So any mix of turns goes around in a circle: the contents and
the next element depend on the number of turns alone (`turned_goes_around`).
-/

namespace BlueNexus.Value

/-- The ways to turn a value. -/
inductive Turn where
  | read
  | rotate
deriving DecidableEq

/-- The value after a turn. -/
def Turn.after : Turn → Value → Value
  | .read, v => v.read.2
  | .rotate, v => v.rotate

/-- The value after the turns, the first one first. -/
def turned (v : Value) (turns : List Turn) : Value := turns.foldl (fun v t => t.after v) v

variable {items : List Int64}

@[simp] theorem Turn.after_eq_rotate (t : Turn) (v : Value) : t.after v = v.rotate := by
  cases t with
  | read => rw [after, read_eq]
  | rotate => rfl

theorem rotate_sequence (items : List Int64) :
    (sequence items).rotate = .sequence (items.rotate 1) := by
  cases items with
  | nil => rfl
  | cons a r => rw [rotate_sequence_cons, List.rotate_cons_succ, List.rotate_zero]

@[simp] theorem turned_scalar (n : Int64) (turns : List Turn) :
    (scalar n).turned turns = .scalar n := by
  induction turns with
  | nil => rfl
  | cons t turns ih => rwa [turned, List.foldl_cons, t.after_eq_rotate]

@[simp] theorem turned_sequence (items : List Int64) (turns : List Turn) :
    (sequence items).turned turns = .sequence (items.rotate turns.length) := by
  induction turns generalizing items with
  | nil => rw [List.length_nil, List.rotate_zero, turned, List.foldl_nil]
  | cons t turns ih =>
    rw [turned, List.foldl_cons, t.after_eq_rotate, rotate_sequence, ← turned, ih,
      List.rotate_rotate, List.length_cons, Nat.add_comm]

private theorem front?_rotated (h : items ≠ []) (i : Nat) :
    (sequence (items.rotate i)).front? = items[i % items.length]? := by
  rw [front?, ← List.rotate_mod, List.head?_rotate (Nat.mod_lt _ (List.length_pos_iff.2 h))]

/-- Whatever the turns are, a sequence is rotated by their number. A read on the way gives the
element that has come to the front by then, and a comparison sees the same one. Empty sequences and
scalars do not change. -/
theorem turned_goes_around (turns : List Turn) :
    (∀ items, items ≠ [] →
      (sequence items).turned turns =
        .sequence (items.rotate (turns.length % items.length)) ∧
      (items.rotate (turns.length % items.length)).Perm items ∧
      (turns.length = items.length → (sequence items).turned turns = .sequence items) ∧
      ∀ i < turns.length,
        ((sequence items).turned (turns.take i)).read.1 = items[i % items.length]? ∧
        ((sequence items).turned (turns.take i)).read.1 =
          some ((sequence items).turned (turns.take i)).numeric) ∧
    ((sequence []).turned turns = .sequence [] ∧
      ∀ i < turns.length, ((sequence []).turned (turns.take i)).read.1 = none) ∧
    ∀ n, (scalar n).turned turns = .scalar n ∧
      ∀ i < turns.length, ((scalar n).turned (turns.take i)).read.1 = some n := by
  refine ⟨fun items h => ⟨?_, List.rotate_perm _ _, fun hlength => ?_, fun i hi => ?_⟩,
    ⟨?_, fun i _ => ?_⟩, fun n => ⟨turned_scalar n turns, fun i _ => ?_⟩⟩
  · rw [turned_sequence, List.rotate_mod]
  · rw [turned_sequence, hlength, List.rotate_length]
  · have hread : ((sequence items).turned (turns.take i)).front? = items[i % items.length]? := by
      rw [turned_sequence, List.length_take_of_le hi.le, front?_rotated h]
    have hlt : i % items.length < items.length := Nat.mod_lt _ (List.length_pos_iff.2 h)
    rw [read_eq, numeric, hread, List.getElem?_eq_getElem hlt]
    exact ⟨rfl, rfl⟩
  · rw [turned_sequence, List.rotate_nil]
  · rw [turned_sequence, List.rotate_nil]
    rfl
  · rw [turned_scalar]
    rfl

/-- A sequence of three that is read, rotated and read, and read once more at its old place. -/
theorem turned_goes_around_three :
    let items : List Int64 := [72, 105, 33]
    let turns : List Turn := [.read, .rotate, .read, .read]
    items ≠ [] ∧ (sequence items).turned turns = .sequence [105, 33, 72] ∧
      ((sequence items).turned [.read, .rotate]).read.1 = some 33 ∧
      ((sequence items).turned [.read, .rotate, .read]).read.1 = some 72 := by
  intro items turns
  obtain ⟨hturned, -, -, hread⟩ := (turned_goes_around turns).1 items (by decide)
  exact ⟨by decide, hturned.trans (by decide), (hread 2 (by decide)).1,
    (hread 3 (by decide)).1.trans (by decide)⟩

end BlueNexus.Value
