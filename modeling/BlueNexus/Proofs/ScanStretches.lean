import BlueNexus.Proofs.TokenScan

/-!
# The stretches of a scan

A scan stands at a place in its fragment, and each step takes it on to the next place. What a step
takes is a stretch of the text: a form, or the two characters that are none. The scan comes to the
end of the text or to a flaw, and up to there the stretches lie one behind the other and leave
nothing out (`stretches_tile_text`).
-/

namespace BlueNexus

open Text

/-- What one step of a scan takes: the characters from `start` on and before `stop`, and the form
that they are, if they are one. -/
structure Stretch where
  form : Option Form
  start : Nat
  stop : Nat
deriving DecidableEq

/-- The texts that a form keeps as they stand. -/
def Form.words : Form → List Text
  | .expression _ t | .drop t | .debug t => [t]
  | .conditional kind _ _ => [kind.toText]
  | _ => []

namespace Stretch

def text (f : Fragment) (s : Stretch) : Text := (f.text.drop s.start).take (s.stop - s.start)

def token? (f : Fragment) (s : Stretch) : Option Token := s.form.map (⟨·, f.offset + s.start⟩)

/-- The stretch is a part of the text, and all that its form carries or keeps is a part of the
stretch. Only a dot and a dollar sign with no name behind them are no form. -/
structure Within (f : Fragment) (s : Stretch) : Prop where
  start_lt : s.start < s.stop
  stop_le : s.stop ≤ f.text.length
  formless_iff : s.form = none ↔ s.text f = ['.', '$']
  nameless : s.form = none → Name.leading? (f.text.drop s.stop) = none
  carried : ∀ form, s.form = some form → ∀ g ∈ form.fragments,
    ∃ k, g.offset = f.offset + k ∧ Slice f.text k g.text ∧
      s.start < k ∧ k + g.text.length ≤ s.stop
  kept : ∀ form, s.form = some form → ∀ t ∈ form.words, t <:+: s.text f

end Stretch

private theorem Text.Slice.isInfix_take {whole t : Text} {k m : Nat} (h : Slice whole k t)
    (hm : k + t.length ≤ m) : t <:+: whole.take m := by
  have hprefix : t <+: (whole.take m).drop k := by
    rw [List.drop_take]
    exact List.prefix_take_iff.2 ⟨h, by omega⟩
  exact hprefix.isInfix.trans (List.drop_suffix k _).isInfix

namespace Form

variable {limit offset : Nat} {breaks : List Nat} {c : Char} {r : Text}

theorem Reads.formless_iff {x : Reading} (h : Reads limit breaks offset c r (.ok x)) :
    x.form = none ↔ (c :: r).take (1 + x.extent) = ['.', '$'] := by
  have other : ∀ {form : Form} {n : Nat}, c ≠ '.' →
      (some form = none ↔ (c :: r).take (1 + n) = ['.', '$']) := by
    intro form n hc
    rw [Nat.add_comm, List.take_succ_cons]
    simp [hc]
  cases h with
  | number hc hv =>
    refine other ?_
    rintro rfl
    cases hc
  | nameless h => simp
  | rotate x r => simp
  | dot h => simp
  | drop hc h => exact other (by rcases hc with rfl | rfl <;> decide)
  | comparison h =>
    obtain ⟨-, -, -, rfl⟩ := glyph_of_pair h
    simp
  | glyph _ _ _ h =>
    refine other ?_
    rintro rfl
    exact (start_of_glyph h).2.2 (by simp)
  | mention x r => exact other (x.letter_ne rfl)
  | string | debug | expression | block | openBlock | conditional => exact other (by decide)

private theorem Reads.nameless_behind {n : Nat}
    (h : Reads limit breaks offset c r (.ok ⟨none, n⟩)) : Name.leading? (r.drop n) = none := by
  cases h with
  | nameless h => exact h

theorem Reads.kept {form : Form} {n : Nat} (h : Reads limit breaks offset c r (.ok ⟨some form, n⟩))
    {t : Text} (ht : t ∈ form.words) : t <:+: (c :: r).take (1 + n) := by
  suffices hslice : ∃ k, Slice (c :: r) k t ∧ k + t.length ≤ 1 + n by
    obtain ⟨k, hslice, hle⟩ := hslice
    exact hslice.isInfix_take hle
  cases h with
  | debug r =>
    cases List.mem_singleton.1 ht
    refine ⟨0, (List.prefix_cons_inj '_').2 (List.takeWhile_prefix _), ?_⟩
    rw [List.length_cons]
    omega
  | @expression x r h =>
    cases List.mem_singleton.1 ht
    exact ⟨2, List.takeWhile_prefix _, by omega⟩
  | @drop c param r hc h =>
    cases List.mem_singleton.1 ht
    exact ⟨2, List.prefix_append _ _, by omega⟩
  | @conditional kind predicate rest n hk hp h =>
    cases List.mem_singleton.1 ht
    rw [ConditionKind.toText_ofText]
    exact ⟨2, List.prefix_append _ _, by omega⟩
  | _ => cases ht

end Form

namespace Fragment

/-- What is left of the fragment from the place `p` on. -/
def behind (p : Nat) (f : Fragment) : Fragment := ⟨f.text.drop p, f.offset + p, f.breaks⟩

/-- What comes of reading at the place `p`, unless the text ends there. -/
def readAt? (limit : Nat) (f : Fragment) (p : Nat) : Option (Except Fault Form.Reading) :=
  match f.text.drop p with
  | [] => none
  | c :: r => some (Form.read limit f.breaks (f.offset + p) c r)

/-- A scan that stands at one place comes to another one, over the stretches between them. -/
inductive Passes (limit : Nat) (f : Fragment) : Nat → List Stretch → Nat → Prop
  | here (p) : Passes limit f p [] p
  | step {p x ss q} (hx : f.readAt? limit p = some (.ok x))
      (h : Passes limit f (p + 1 + x.extent) ss q) :
      Passes limit f p (⟨x.form, p, p + 1 + x.extent⟩ :: ss) q

variable {limit p q : Nat} {f : Fragment} {x : Form.Reading} {e : Fault} {ss : List Stretch}
  {s : Stretch}

@[simp] theorem behind_zero (f : Fragment) : f.behind 0 = f := rfl

@[simp] theorem readAt?_eq_none_iff : f.readAt? limit p = none ↔ f.text.length ≤ p := by
  rw [← List.drop_eq_nil_iff, readAt?]
  split <;> simp_all

theorem reads_of_readAt? {x : Except Fault Form.Reading} (h : f.readAt? limit p = some x) :
    ∃ c r, f.text.drop p = c :: r ∧ Form.Reads limit f.breaks (f.offset + p) c r x := by
  unfold readAt? at h
  split at h
  · cases h
  · next c r hr =>
    cases h
    exact ⟨c, r, hr, Form.reads_read limit f.breaks (f.offset + p) c r⟩

theorem drop_behind {c : Char} {r : Text} (hr : f.text.drop p = c :: r) (n : Nat) :
    f.text.drop (p + 1 + n) = r.drop n := by
  have htail : f.text.drop (p + 1) = r := by
    rw [← List.drop_drop, hr, List.drop_one, List.tail_cons]
  rw [← List.drop_drop, htail]

theorem tokens_behind_of_ok (h : f.readAt? limit p = some (.ok x)) :
    (f.behind p).tokens limit = ((f.behind (p + 1 + x.extent)).tokens limit).map
      ((x.form.map fun form => ⟨form, f.offset + p⟩).toList ++ ·) := by
  unfold readAt? at h
  split at h
  · cases h
  · next c r hr =>
    have hoffset : f.offset + p + 1 + x.extent = f.offset + (p + 1 + x.extent) := by omega
    simp only [tokens, behind, hr, tokensFrom_of_ok (Option.some.inj h), drop_behind hr, hoffset]

theorem tokens_behind_of_error (h : f.readAt? limit p = some (.error e)) :
    (f.behind p).tokens limit = .error e := by
  unfold readAt? at h
  split at h
  · cases h
  · next c r hr => simp only [tokens, behind, hr, tokensFrom_of_error (Option.some.inj h)]

theorem tokens_behind_of_none (h : f.readAt? limit p = none) :
    (f.behind p).tokens limit = .ok [] := by
  have hnil : f.text.drop p = [] := List.drop_eq_nil_iff.2 (readAt?_eq_none_iff.1 h)
  simp only [tokens, behind, hnil, tokensFrom]

theorem stretch_text {c : Char} {r : Text} (hr : f.text.drop p = c :: r) (form : Option Form)
    (n : Nat) : Stretch.text f ⟨form, p, p + 1 + n⟩ = (c :: r).take (1 + n) := by
  have hsize : p + 1 + n - p = 1 + n := by omega
  rw [Stretch.text, hr, hsize]

theorem within_of_readAt? (h : f.readAt? limit p = some (.ok x)) :
    Stretch.Within f ⟨x.form, p, p + 1 + x.extent⟩ := by
  obtain ⟨c, r, hr, hreads⟩ := reads_of_readAt? h
  have htext : Stretch.text f ⟨x.form, p, p + 1 + x.extent⟩ = (c :: r).take (1 + x.extent) :=
    stretch_text hr x.form x.extent
  obtain ⟨form, n⟩ := x
  have hn : n ≤ r.length := hreads.extent_le
  have hlength : f.text.length - p = r.length + 1 := by
    rw [← List.length_drop, hr, List.length_cons]
  refine ⟨?_, ?_, ?_, fun hnone => ?_, fun form hform g hg => ?_, fun form hform t ht => ?_⟩
  · change p < p + 1 + n
    omega
  · change p + 1 + n ≤ f.text.length
    omega
  · rw [htext]
    exact hreads.formless_iff
  · cases hnone
    rw [drop_behind hr]
    exact hreads.nameless_behind
  · cases hform
    obtain ⟨k, hk, hslice⟩ := hreads.carried hg
    have hend := hreads.carried_end_le hg
    have hwhole : Slice f.text p (c :: r) := hr ▸ List.prefix_rfl
    refine ⟨p + 1 + k, by omega, hwhole.tail.trans hslice, ?_, ?_⟩
    · change p < p + 1 + k
      omega
    · change p + 1 + k + g.text.length ≤ p + 1 + n
      omega
  · cases hform
    rw [htext]
    exact hreads.kept ht

namespace Passes

theorem of_mem (h : f.Passes limit p ss q) (hs : s ∈ ss) :
    ∃ x, f.readAt? limit s.start = some (.ok x) ∧
      s = ⟨x.form, s.start, s.start + 1 + x.extent⟩ := by
  induction h with
  | here => cases hs
  | @step p x ss q hx h ih =>
    rcases List.mem_cons.1 hs with rfl | hs
    · exact ⟨x, hx, rfl⟩
    · exact ih hs

theorem reads_of_mem (h : f.Passes limit p ss q) (hs : s ∈ ss) :
    ∃ c r n, Form.Reads limit f.breaks (f.offset + s.start) c r (.ok ⟨s.form, n⟩) ∧
      s.text f = (c :: r).take (1 + n) := by
  obtain ⟨x, hx, he⟩ := h.of_mem hs
  obtain ⟨c, r, hr, hreads⟩ := reads_of_readAt? hx
  rw [he]
  exact ⟨c, r, x.extent, hreads, stretch_text hr x.form x.extent⟩

theorem within (h : f.Passes limit p ss q) (hs : s ∈ ss) : s.Within f := by
  obtain ⟨x, hx, he⟩ := h.of_mem hs
  exact he ▸ within_of_readAt? hx

theorem le (h : f.Passes limit p ss q) : p ≤ q := by
  induction h with
  | here => exact Nat.le_refl _
  | step => omega

private theorem le_start (h : f.Passes limit p ss q) (hs : s ∈ ss) : p ≤ s.start := by
  induction h with
  | here => cases hs
  | step hx h ih =>
    rcases List.mem_cons.1 hs with rfl | hs
    · exact Nat.le_refl _
    · have hle := ih hs
      omega

theorem le_length (h : f.Passes limit p ss q) (hp : p ≤ f.text.length) : q ≤ f.text.length := by
  induction h with
  | here => exact hp
  | step hx h ih => exact ih (within_of_readAt? hx).stop_le

/-- The scan never goes back. -/
theorem pairwise (h : f.Passes limit p ss q) : ss.Pairwise fun s t => s.stop ≤ t.start := by
  induction h with
  | here => exact .nil
  | step hx h ih => exact ih.cons fun t ht => h.le_start ht

theorem pairwise_stop (h : f.Passes limit p ss q) : (p :: ss.map (·.stop)).Pairwise (· < ·) := by
  induction h with
  | here => exact List.pairwise_singleton _ _
  | @step p x ss q hx h ih =>
    rw [List.map_cons, List.pairwise_cons]
    refine ⟨fun t ht => ?_, ih⟩
    have hlt : p < p + 1 + x.extent := by omega
    rcases List.mem_cons.1 ht with rfl | ht
    · exact hlt
    · exact hlt.trans (List.rel_of_pairwise_cons ih ht)

private theorem length_add_le (h : f.Passes limit p ss q) : p + ss.length ≤ q := by
  induction h with
  | here => exact Nat.le_refl _
  | step hx h ih =>
    rw [List.length_cons]
    omega

/-- The stretches leave nothing out. -/
theorem flatten_text (h : f.Passes limit p ss q) :
    (ss.map (·.text f)).flatten = (f.text.drop p).take (q - p) := by
  induction h with
  | here => simp
  | @step p x ss q hx h ih =>
    have hle := h.le
    rw [List.map_cons, List.flatten_cons, ih, Stretch.text]
    have hsplit : q - p = (p + 1 + x.extent - p) + (q - (p + 1 + x.extent)) := by omega
    have hdrop : (f.text.drop p).drop (p + 1 + x.extent - p) = f.text.drop (p + 1 + x.extent) := by
      rw [List.drop_drop]
      congr 1
      omega
    rw [hsplit, List.take_add, hdrop]

/-- The tokens from a place on are those of the stretches and those that come after them. -/
theorem tokens_behind (h : f.Passes limit p ss q) : (f.behind p).tokens limit =
    ((f.behind q).tokens limit).map (ss.filterMap (·.token? f) ++ ·) := by
  induction h with
  | here p => cases (f.behind p).tokens limit <;> rfl
  | @step p x ss q hx h ih =>
    rw [tokens_behind_of_ok hx, ih]
    cases (f.behind q).tokens limit with
    | error e => rfl
    | ok ts => cases hform : x.form <;> simp [Except.map, Stretch.token?]

end Passes

theorem exists_passes (limit : Nat) (f : Fragment) (hp : p ≤ f.text.length) :
    ∃ ss q, f.Passes limit p ss q ∧
      (f.readAt? limit q = none ∨ ∃ e, f.readAt? limit q = some (.error e)) := by
  -- Every step leaves less of the text.
  induction hn : f.text.length - p using Nat.strongRecOn generalizing p with
  | ind n ih =>
    cases hx : f.readAt? limit p with
    | none => exact ⟨[], p, .here p, .inl hx⟩
    | some x =>
      cases x with
      | error e => exact ⟨[], p, .here p, .inr ⟨e, hx⟩⟩
      | ok x =>
        have hle : p + 1 + x.extent ≤ f.text.length := (within_of_readAt? hx).stop_le
        obtain ⟨ss, q, h, hq⟩ := ih (f.text.length - (p + 1 + x.extent)) (by omega) hle rfl
        exact ⟨_, q, .step hx h, hq⟩

/-- A scan comes to the end of the text, which then has the tokens of its stretches, or to a flaw,
which is the fault of the text. -/
theorem scan_ends (limit : Nat) (f : Fragment) :
    ∃ ss p, f.Passes limit 0 ss p ∧
      ((p = f.text.length ∧ f.tokens limit = .ok (ss.filterMap (·.token? f))) ∨
        (p < f.text.length ∧
          ∃ e, f.readAt? limit p = some (.error e) ∧ f.tokens limit = .error e)) := by
  obtain ⟨ss, p, h, hend⟩ := exists_passes limit f (Nat.zero_le _)
  have hle := h.le_length (Nat.zero_le _)
  have htokens := h.tokens_behind
  rw [behind_zero] at htokens
  refine ⟨ss, p, h, ?_⟩
  rcases hend with hnone | ⟨e, he⟩
  · refine .inl ⟨hle.antisymm (readAt?_eq_none_iff.1 hnone), ?_⟩
    rw [htokens, tokens_behind_of_none hnone]
    exact congrArg Except.ok (List.append_nil _)
  · have hlt : p < f.text.length := by
      by_contra hge
      cases (readAt?_eq_none_iff.2 (Nat.le_of_not_lt hge)).symm.trans he
    refine .inr ⟨hlt, e, he, ?_⟩
    rw [htokens, tokens_behind_of_error he]
    rfl

theorem exists_passes_of_tokens {ts : List Token} (h : f.tokens limit = .ok ts) :
    ∃ ss, f.Passes limit 0 ss f.text.length ∧ ss.filterMap (·.token? f) = ts := by
  obtain ⟨ss, p, hpasses, ⟨rfl, hts⟩ | ⟨-, e, -, he⟩⟩ := scan_ends limit f
  · exact ⟨ss, hpasses, Except.ok.inj (hts.symm.trans h)⟩
  · cases he.symm.trans h

theorem exists_passes_of_error (h : f.tokens limit = .error e) :
    ∃ ss p, f.Passes limit 0 ss p ∧ p < f.text.length ∧ f.readAt? limit p = some (.error e) := by
  obtain ⟨ss, p, hpasses, ⟨-, hts⟩ | ⟨hlt, e', hflaw, he⟩⟩ := scan_ends limit f
  · cases hts.symm.trans h
  · cases he.symm.trans h
    exact ⟨ss, p, hpasses, hlt, hflaw⟩

end Fragment

open Fragment

/-- Every scan ends. The places where it stands go up from the front of the text, and between any
two that follow one another lies a stretch, none of them empty and all within the text. A stretch is
one token, at its first character, unless it is a dot and a dollar sign with no name behind it. -/
theorem stretches_tile_text (limit : Nat) (f : Fragment) :
    ∃ ss p, f.Passes limit 0 ss p ∧
      ((p = f.text.length ∧ f.tokens limit = .ok (ss.filterMap (·.token? f))) ∨
        (p < f.text.length ∧
          ∃ e, f.readAt? limit p = some (.error e) ∧ f.tokens limit = .error e)) ∧
      (0 :: ss.map (·.stop)).Pairwise (· < ·) ∧
      (ss.map (·.text f)).flatten = f.text.take p ∧
      (∀ s ∈ ss, s.Within f) ∧
      (ss.filterMap (·.token? f)).Pairwise (fun t u => t.offset < u.offset) ∧
      (ss.filterMap (·.token? f)).length ≤ ss.length ∧ ss.length ≤ f.text.length := by
  obtain ⟨ss, p, h, hend⟩ := scan_ends limit f
  refine ⟨ss, p, h, hend, h.pairwise_stop, h.flatten_text, fun s hs => h.within hs, ?_,
    List.length_filterMap_le _ _, ?_⟩
  · have hpairwise : ss.Pairwise fun s t => s.start < t.start :=
      h.pairwise.imp_of_mem fun hs _ hle => (h.within hs).start_lt.trans_le hle
    refine hpairwise.filterMap _ fun s s' hlt t ht u hu => ?_
    obtain ⟨form, -, rfl⟩ := Option.map_eq_some_iff.1 ht
    obtain ⟨form', -, rfl⟩ := Option.map_eq_some_iff.1 hu
    exact Nat.add_lt_add_left hlt f.offset
  · have hle := h.length_add_le
    have hp := h.le_length (Nat.zero_le _)
    omega

end BlueNexus
