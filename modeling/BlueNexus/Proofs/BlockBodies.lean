import BlueNexus.Proofs.NestingDepth
import BlueNexus.Proofs.TokenScan

/-!
# The bodies of blocks

In the text behind the opening of a block every `>` in front of a name opens another one, and every
`<` is a close, whatever else the two may belong to. The body ends at the first close that is left
over, or else with the text (`block_ends_at_unmatched_close`).
-/

namespace BlueNexus

open Nesting

namespace Form

variable {limit offset : Nat} {breaks : List Nat} {x : Name} {r : Text}

private theorem read_block (limit : Nat) (breaks : List Nat) (offset : Nat) (x : Name) (r : Text) :
    read limit breaks offset '>' (x.letter :: '<' :: r) = readBlock limit breaks offset x r :=
  read_eq_of_reads (reads_block x)

private theorem readBlock_ne_malformed (o : Nat) :
    readBlock limit breaks offset x r ≠ .error (.malformed o) := by
  unfold readBlock
  cases extent blocks limit 0 r <;> simp

end Form

/-- With one opening in front of the text, let the depth be one more than the openings less the
closes. The block ends at the first close at depth one, and scanning goes on right behind it. Where
there is none the block ends with the text. But if openings before this end take the depth above the
limit, the first of them is the fault. As far as the block reaches, the counter of the scan is the
depth, which is positive until the close makes it zero; and a block that lacks its close is never
malformed. -/
theorem block_ends_at_unmatched_close (limit : Nat) (breaks : List Nat) (offset : Nat) (x : Name)
    (r : Text) :
    (∀ j, ClosesAt blocks 0 r j → (∀ n, ¬TooDeepAt blocks limit 0 r n) →
      Fragment.tokens limit ⟨'>' :: x.letter :: '<' :: r, offset, breaks⟩ =
        (Fragment.tokens limit ⟨r.drop (j + 1), offset + 3 + (j + 1), breaks⟩).map
          (⟨.block x (.code breaks (offset + 3) (r.take j)), offset⟩ :: ·)) ∧
    ((∀ j, ¬ClosesAt blocks 0 r j) → (∀ n, ¬TooDeepAt blocks limit 0 r n) →
      Fragment.tokens limit ⟨'>' :: x.letter :: '<' :: r, offset, breaks⟩ =
        .ok [⟨.block x (.code breaks (offset + 3) r), offset⟩]) ∧
    (∀ n, TooDeepAt blocks limit 0 r n → (∀ m < n, ¬TooDeepAt blocks limit 0 r m) →
      Fragment.tokens limit ⟨'>' :: x.letter :: '<' :: r, offset, breaks⟩ =
        .error (.nestingTooDeep (offset + 3 + n) limit)) ∧
    (∀ n ≤ r.length, (∀ j, ClosesAt blocks 0 r j → n ≤ j) →
      (∀ m, TooDeepAt blocks limit 0 r m → n ≤ m) →
      ∃ k : Nat, depth blocks 0 r n = k + 1 ∧
        extent blocks limit 0 r = Extent.later^[n] (extent blocks limit k (r.drop n))) ∧
    (∀ j, ClosesAt blocks 0 r j → depth blocks 0 r (j + 1) = 0) ∧
    ∀ o, Form.read limit breaks offset '>' (x.letter :: '<' :: r) ≠ .error (.malformed o) := by
  refine ⟨fun j hj hdeep => ?_, fun hopen hdeep => ?_, fun n hn hfirst => ?_,
    fun n hn hclose hdeep => extent_reached apart_blocks hn hclose hdeep,
    fun j hj => hj.depth_behind apart_blocks, fun o => ?_⟩
  · have hextent : extent blocks limit 0 r = .closed j :=
      (extent_eq_iff apart_blocks).2 ⟨hj, hdeep⟩
    have hoffset : offset + 1 + (j + 3) = offset + 3 + (j + 1) := by omega
    rw [Fragment.tokens_of_reads (.block x hextent), hoffset]
    rfl
  · have hextent : extent blocks limit 0 r = .unclosed :=
      (extent_eq_iff apart_blocks).2 ⟨hopen, hdeep⟩
    have hnil : (x.letter :: '<' :: r).drop (r.length + 2) = [] :=
      List.drop_eq_nil_iff.2 (Nat.le_refl _)
    rw [Fragment.tokens_of_reads (.openBlock x hextent), hnil]
    rfl
  · have hextent : extent blocks limit 0 r = .tooDeep n :=
      (extent_eq_iff apart_blocks).2 ⟨hn, hfirst⟩
    exact Fragment.tokens_of_flaw (.deepBlock x hextent)
  · rw [Form.read_block]
    exact Form.readBlock_ne_malformed o

/-- A block with an expression in its body, which a lower limit does not allow, and a block without
its close. -/
theorem block_ends_at_unmatched_close_behind_expression :
    let r : Text := ['>', 'b', '+', '1', '<', '<', '#']
    let whole : Fragment := ⟨'>' :: 'a' :: '<' :: r, 4, []⟩
    let body : Fragment := ⟨['>', 'b', '+', '1', '<'], 7, []⟩
    ClosesAt blocks 0 r 5 ∧ (∀ n, ¬TooDeepAt blocks 2 0 r n) ∧
    whole.tokens 2 = .ok [⟨.block ⟨'a', rfl⟩ body, 4⟩, ⟨.glyph .printNumber, 13⟩] ∧
    (∃ k : Nat, depth blocks 0 r 4 = k + 1 ∧
      extent blocks 2 0 r = Extent.later^[4] (extent blocks 2 k ['<', '<', '#'])) ∧
    depth blocks 0 r 6 = 0 ∧
    TooDeepAt blocks 1 0 r 0 ∧ whole.tokens 1 = .error (.nestingTooDeep 7 1) ∧
    (∀ j, ¬ClosesAt blocks 0 ['1'] j) ∧ (∀ n, ¬TooDeepAt blocks 2 0 ['1'] n) ∧
    Fragment.tokens 2 ⟨['>', 'a', '<', '1'], 4, []⟩ =
      .ok [⟨.block ⟨'a', rfl⟩ ⟨['1'], 7, []⟩, 4⟩] := by
  intro r whole body
  have hextent : extent blocks 2 0 r = .closed 5 := rfl
  obtain ⟨hcloses, hnone⟩ := (extent_eq_iff apart_blocks).1 hextent
  have hdeep : extent blocks 1 0 r = .tooDeep 0 := rfl
  obtain ⟨hopens, hfirst⟩ := (extent_eq_iff apart_blocks).1 hdeep
  have hopen : extent blocks 2 0 ['1'] = .unclosed := rfl
  obtain ⟨hcloseless, hshallow⟩ := (extent_eq_iff apart_blocks).1 hopen
  obtain ⟨hclosed, -, -, hcounter, hbehind, -⟩ :=
    block_ends_at_unmatched_close 2 [] 4 ⟨'a', rfl⟩ r
  obtain ⟨-, -, htooDeep, -⟩ := block_ends_at_unmatched_close 1 [] 4 ⟨'a', rfl⟩ r
  obtain ⟨-, hunclosed, -⟩ := block_ends_at_unmatched_close 2 [] 4 ⟨'a', rfl⟩ ['1']
  have hreached : ∀ j, ClosesAt blocks 0 r j → 4 ≤ j := by
    intro j hj
    rw [hj.unique hcloses]
    decide
  exact ⟨hcloses, hnone, (hclosed 5 hcloses hnone).trans rfl,
    hcounter 4 (by decide) hreached fun m hm => absurd hm (hnone m), hbehind 5 hcloses, hopens,
    htooDeep 0 hopens hfirst, hcloseless, hshallow, (hunclosed hcloseless hshallow).trans rfl⟩

end BlueNexus
