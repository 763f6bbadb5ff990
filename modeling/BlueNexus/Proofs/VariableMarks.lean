import BlueNexus.Proofs.FaultPlaces

/-!
# The marks of a variable

What a token may do to a variable shows next to its name: it is assigned to where `>` stands in
front of the name, it loses its front element where the name stands in brackets, and it rotates
where `$` stands in front of the name, or a push marker in a whole program. A text without these
marks has no token that does so (`Fragment.listSpares_of_tokens`).
-/

namespace BlueNexus

/-- What the value of a variable may become: what it is, and what it becomes in several changes. -/
structure Leeway where
  rel : Value → Value → Prop
  refl (v : Value) : rel v v
  trans {u v w : Value} : rel u v → rel v w → rel u w

namespace Leeway

def Drops (l : Leeway) : Prop := ∀ v, l.rel v v.dropFront

def Rotates (l : Leeway) : Prop := ∀ v, l.rel v v.rotate

end Leeway

/-- The text has no mark of a change of the variable that is not allowed. -/
structure Text.Spares (l : Leeway) (x : Name) (t : Text) : Prop where
  assigned : ¬['>', x.letter] <:+: t
  dropped : ['[', x.letter, ']'] <:+: t → l.Drops
  rotated : ['$', x.letter] <:+: t → l.Rotates

/-- The form itself makes no change of the variable that is not allowed. -/
def Form.Spares (l : Leeway) (x : Name) : Form → Prop
  | .block y _ | .expression y _ => y ≠ x
  | .drop param => param = [x.letter] → l.Drops
  | .rotate y | .pushVariable y => y = x → l.Rotates
  | _ => True

/-- The token makes no change of the variable that is not allowed, and nothing within it does, with
the tokens behind it in view. -/
structure Token.Spares (l : Leeway) (x : Name) (t : Token) (ts : List Token) : Prop where
  form : t.form.Spares l x
  carried : ∀ f ∈ t.form.fragments, f.text.Spares l x
  printed : t.form = .glyph .printChar → ∀ o us, ts = ⟨.variable x, o⟩ :: us → l.Rotates

def Token.ListSpares (l : Leeway) (x : Name) (ts : List Token) : Prop :=
  ∀ t us, t :: us <:+ ts → t.Spares l x us

variable {l : Leeway} {x : Name} {limit offset n : Nat} {breaks : List Nat} {c : Char} {r t : Text}
  {ts us : List Token}

theorem Text.Spares.mono {s : Text} (h : t.Spares l x) (hs : s <:+: t) : s.Spares l x where
  assigned hi := h.assigned (hi.trans hs)
  dropped hi := h.dropped (hi.trans hs)
  rotated hi := h.rotated (hi.trans hs)

theorem Token.ListSpares.of_suffix (h : Token.ListSpares l x ts) (hs : us <:+ ts) :
    Token.ListSpares l x us :=
  fun t vs ht => h t vs (ht.trans hs)

theorem Form.Reads.spares {form : Form} (h : Reads limit breaks offset c r (.ok ⟨some form, n⟩))
    (ht : Text.Spares l x (c :: r)) : form.Spares l x := by
  cases h with
  | rotate y r =>
    rintro rfl
    exact ht.rotated ⟨['.'], r, rfl⟩
  | @expression y r h =>
    rintro rfl
    exact ht.assigned ⟨[], r, rfl⟩
  | @block y r n h | @openBlock y r h =>
    rintro rfl
    exact ht.assigned ⟨[], '<' :: r, rfl⟩
  | @drop c param r hc h =>
    rintro rfl
    exact ht.dropped ⟨[c], r, rfl⟩
  | _ => trivial

namespace Fragment

theorem Scan.head_of_variable {o : Nat} (h : Scan limit breaks offset t (⟨.variable x, o⟩ :: us)) :
    ∃ r, t = x.letter :: r := by
  cases h with
  | form h hs =>
    cases h with
    | mention => exact ⟨_, rfl⟩
  | nameless h hs =>
    cases h with
    | nameless h => exact absurd rfl (hs.head_ne_variable h x o us)

theorem Scan.infix_of_glyph {g : Glyph} {o o' : Nat} (h : Scan limit breaks offset t ts)
    (hs : ⟨.glyph g, o⟩ :: ⟨.variable x, o'⟩ :: us <:+ ts) : [g.toChar, x.letter] <:+: t := by
  obtain ⟨a, c, r, n, rfl, -, hreads, hscan⟩ := h.of_suffix_cons hs
  have hname : g.toChar = c ∧ n = 0 := by
    cases hreads with
    | dot => exact ⟨rfl, rfl⟩
    | glyph _ _ _ h => exact ⟨Glyph.toChar_of_ofChar? h, rfl⟩
  obtain ⟨rfl, rfl⟩ := hname
  -- Only a dot and a dollar sign are passed over, and no name stands behind these.
  obtain ⟨r', hr⟩ := hscan.head_of_variable
  rw [List.drop_zero] at hr
  exact ⟨a, r', by simp [hr]⟩

theorem Scan.listSpares (h : Scan limit breaks offset t ts) (ht : t.Spares l x) :
    Token.ListSpares l x ts := by
  intro u us hs
  obtain ⟨a, c, r, n, rfl, -, hreads, -⟩ := h.of_suffix_cons hs
  refine ⟨hreads.spares (ht.mono (List.suffix_append a _).isInfix), fun f hf => ?_, ?_⟩
  · obtain ⟨k, -, hk⟩ := hreads.carried hf
    have hr : r <:+: a ++ c :: r := (List.suffix_append_of_suffix (List.suffix_cons c r)).isInfix
    exact ht.mono (hk.isInfix.trans hr)
  · obtain ⟨form, o⟩ := u
    rintro rfl o' vs rfl
    exact ht.rotated (h.infix_of_glyph hs)

theorem listSpares_of_tokens {f : Fragment} (h : f.tokens limit = .ok ts)
    (hf : f.text.Spares l x) : Token.ListSpares l x ts :=
  (scan_of_tokens h).listSpares hf

end Fragment

namespace PushMarker

private theorem listSpares_fuse (h : Token.ListSpares l x ts)
    (hmark : ∀ o o' us, ⟨.glyph .push, o⟩ :: ⟨.variable x, o'⟩ :: us <:+ ts → l.Rotates) :
    Token.ListSpares l x (fuse ts) := by
  intro t us hs
  cases arises_of_suffix_fuse hs with
  | @kept vs hvs =>
    obtain ⟨hform, hcarried, hprinted⟩ := h t vs hvs
    refine ⟨hform, hcarried, fun hg o us hus => ?_⟩
    obtain ⟨ws, hws, -⟩ := eq_of_fuse_variable hus
    exact hprinted hg o ws hws
  | @fused m u vs hvs hm hu =>
    obtain ⟨mf, o⟩ := m
    obtain ⟨uf, o'⟩ := u
    obtain ⟨tf, p⟩ := t
    cases hm
    rcases fused?_cases hu with ⟨_, rfl⟩ | ⟨n, _, rfl⟩ | ⟨y, hy, rfl⟩
    · exact ⟨trivial, by simp [Form.fragments], by rintro ⟨⟩⟩
    · exact ⟨trivial, by simp [Form.fragments], by rintro ⟨⟩⟩
    · cases hy
      refine ⟨?_, by simp [Form.fragments], by rintro ⟨⟩⟩
      rintro rfl
      exact hmark o o' vs hvs

end PushMarker

/-- A program without a mark of the variable has tokens that spare it, where a push marker in front
of the name is a mark of its rotation too. -/
theorem listSpares_of_programTokens {source : Text} (h : programTokens limit source = .ok ts)
    (ht : (Fragment.ofSource source).text.Spares l x)
    (hmark : ['▲', x.letter] <:+: (Fragment.ofSource source).text → l.Rotates) :
    Token.ListSpares l x ts := by
  obtain ⟨us, hus, rfl⟩ := programTokens_eq_ok_iff.1 h
  have hscan := Fragment.scan_of_tokens hus
  exact PushMarker.listSpares_fuse (hscan.listSpares ht) fun _ _ _ hs =>
    hmark (hscan.infix_of_glyph hs)

end BlueNexus
