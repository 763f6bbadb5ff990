import BlueNexus.Proofs.BalancedText
import BlueNexus.Proofs.LoopExits
import BlueNexus.Proofs.PushMarkers
import BlueNexus.Proofs.SourceBreaks
import BlueNexus.Proofs.SpelledSequences
import BlueNexus.Proofs.TokenScan
import Mathlib.Data.List.Chain

/-!
# Programs that build and print a string

A variable is given a text in pieces, each in quotes and in a block of its own. Then it is printed
in one piece, and character by character in a loop, which turns the sequence around once. Neither
the quotes nor the blocks nor the turns lose anything (`built_string_is_printed`).
-/

namespace BlueNexus

open Nesting Token

namespace Text

/-- No `>` stands right before a letter, where it would open a block. -/
def Openless (t : Text) : Prop := t.IsChain fun c d => c = '>' → d.isAlpha = false

instance (t : Text) : Decidable t.Openless := inferInstanceAs (Decidable (List.IsChain _ _))

/-- The text may stand in a block: nothing in it separates, and nothing opens a block or closes
one. -/
structure Enclosable (t : Text) : Prop where
  kept : ∀ c ∈ t, Fragment.isSeparator c = false
  closeless : '<' ∉ t
  openless : t.Openless

def inQuotes (t : Text) : Text := '"' :: (Quotation.encode t ++ ['"'])

/-- The body of a block that assigns the text, or appends it. -/
def pieceBody (append : Bool) (t : Text) : Text := if append then '.' :: t.inQuotes else t.inQuotes

/-- The block that assigns the text to `x`, or appends it. -/
def piece (x : Name) (append : Bool) (t : Text) : Text :=
  '>' :: x.letter :: '<' :: (t.pieceBody append ++ ['<'])

/-- Prints `x` in one piece and then character by character. -/
def printing (x : Name) : Text :=
  ['#', x.letter, '?', '[', '!', '∑', ']', '{', '*', x.letter, '}', '(', '$', x.letter, ')']

/-- Builds a string in `x` from its pieces and prints it. The first piece is assigned, or appended
as the others are. -/
def stringProgram (x : Name) (append : Bool) (t : Text) (ts : List Text) : Text :=
  t.piece x append ++ (ts.flatMap (piece x true) ++ printing x)

variable {t b : Text} {c : Char}

theorem openless_cons :
    Openless (c :: t) ↔ (∀ d ∈ t.head?, c = '>' → d.isAlpha = false) ∧ t.Openless :=
  List.isChain_cons

/-- The encoding of a text begins as the text does, and a quote comes behind it. -/
@[simp] theorem head?_encode (t : Text) :
    (Quotation.encode t ++ ['"']).head? = some (t.head?.getD '"') := by
  cases t with
  | nil => rfl
  | cons c t =>
    rw [Quotation.encode]
    split
    · next hc => exact congrArg some hc.symm
    · rfl

theorem Openless.encode (h : t.Openless) : Openless (Quotation.encode t ++ ['"']) := by
  induction t with
  | nil => exact .singleton _
  | cons c t ih =>
    obtain ⟨hc, ht⟩ := openless_cons.1 h
    rw [Quotation.encode]
    split
    · exact openless_cons.2 ⟨by simp, openless_cons.2 ⟨by simp, ih ht⟩⟩
    · refine openless_cons.2 ⟨fun d hd => ?_, ih ht⟩
      cases (head?_encode t).symm.trans hd
      cases t with
      | nil => exact fun _ => rfl
      | cons e t => exact hc e rfl

theorem Enclosable.inQuotes (h : t.Enclosable) : t.inQuotes.Enclosable where
  kept c hc := by
    have hcases : c = '"' ∨ c ∈ Quotation.encode t := by
      simpa [Text.inQuotes, or_comm, or_assoc] using hc
    rcases hcases with rfl | hc
    · rfl
    · exact h.kept c (Quotation.encode_subset t hc)
  closeless := by
    have hclose : '<' ∉ Quotation.encode t :=
      fun hc => h.closeless (Quotation.encode_subset t hc)
    simpa [Text.inQuotes] using hclose
  openless := openless_cons.2 ⟨by simp, h.openless.encode⟩

theorem Enclosable.pieceBody (h : t.Enclosable) (append : Bool) :
    (t.pieceBody append).Enclosable := by
  cases append with
  | false => exact h.inQuotes
  | true =>
    refine ⟨List.forall_mem_cons.2 ⟨rfl, h.inQuotes.kept⟩, ?_, openless_cons.2 ⟨by simp, ?_⟩⟩
    · exact List.not_mem_cons_of_ne_of_not_mem (by decide) h.inQuotes.closeless
    · exact h.inQuotes.openless

/-- The close behind an enclosable text is its own. -/
theorem Enclosable.extent_eq (h : b.Enclosable) (limit : Nat) (r : Text) :
    extent blocks limit 0 (b ++ '<' :: r) = .closed b.length := by
  obtain ⟨-, hclose, hopen⟩ := h
  induction b with
  | nil => rfl
  | cons c b ih =>
    obtain ⟨hc, hclose⟩ := List.ne_and_not_mem_of_not_mem_cons hclose
    obtain ⟨hletter, hopen⟩ := openless_cons.1 hopen
    have hopens : ¬blocks.opens c (b ++ '<' :: r) = true := by
      intro ho
      obtain ⟨hgreater, hname⟩ : c = '>' ∧ (Name.leading? (b ++ '<' :: r)).isSome = true := by
        simpa [blocks] using ho
      cases b with
      | nil => cases hname
      | cons d b =>
        have hd := hletter d rfl hgreater
        simp [Name.leading?, Name.ofChar?, hd] at hname
    have hlater : extent blocks limit 0 (c :: (b ++ '<' :: r)) =
        (extent blocks limit 0 (b ++ '<' :: r)).later := by
      rw [extent.eq_def]
      exact (if_neg hopens).trans (if_neg hc.symm)
    rw [List.cons_append, hlater, ih hclose hopen]
    rfl

theorem piece_kept (h : t.Enclosable) (x : Name) (append : Bool) :
    ∀ c ∈ t.piece x append, Fragment.isSeparator c = false := by
  have hclose : ∀ c ∈ t.pieceBody append ++ ['<'], Fragment.isSeparator c = false :=
    List.forall_mem_append.2 ⟨(h.pieceBody append).kept, List.forall_mem_singleton.2 rfl⟩
  exact List.forall_mem_cons.2 ⟨rfl, List.forall_mem_cons.2
    ⟨Fragment.isSeparator_of_isAlpha x.isLetter, List.forall_mem_cons.2 ⟨rfl, hclose⟩⟩⟩

private theorem printing_kept (x : Name) : ∀ c ∈ printing x, Fragment.isSeparator c = false := by
  have hx := Fragment.isSeparator_of_isAlpha x.isLetter
  have hall : (printing x).all (!Fragment.isSeparator ·) = true := by
    simp only [printing, List.all_cons, List.all_nil, hx]
    rfl
  intro c hc
  simpa using List.all_eq_true.1 hall c hc

private theorem stringProgram_kept {ts : List Text} (h : ∀ u ∈ t :: ts, u.Enclosable) (x : Name)
    (append : Bool) : ∀ c ∈ stringProgram x append t ts, Fragment.isSeparator c = false := by
  obtain ⟨ht, hts⟩ := List.forall_mem_cons.1 h
  refine List.forall_mem_append.2 ⟨piece_kept ht x append,
    List.forall_mem_append.2 ⟨fun c hc => ?_, printing_kept x⟩⟩
  obtain ⟨u, hu, hc⟩ := List.mem_flatMap.1 hc
  exact piece_kept (hts u hu) x true c hc

end Text

namespace Fragment

open Text

variable {x : Name} {append : Bool} {t r : Text} {offset limit : Nat}

/-- The block of a piece. -/
def pieceToken (x : Name) (append : Bool) (t : Text) (offset : Nat) : Token :=
  ⟨.block x ⟨t.pieceBody append, offset + 3, []⟩, offset⟩

def pieceTokens (x : Name) : (offset : Nat) → List Text → List Token
  | _, [] => []
  | offset, t :: ts =>
    pieceToken x true t offset :: pieceTokens x (offset + (t.piece x true).length) ts

def loopToken (x : Name) (offset : Nat) : Token :=
  ⟨.conditional .each ⟨['*', x.letter], offset + 6, []⟩ ⟨['$', x.letter], offset + 10, []⟩, offset⟩

def printingTokens (x : Name) (offset : Nat) : List Token :=
  [⟨.glyph .printNumber, offset⟩, ⟨.variable x, offset + 1⟩] ++ [loopToken x (offset + 2)]

@[simp] theorem tokens_inQuotes (limit : Nat) (t : Text) (offset : Nat) :
    tokens limit ⟨t.inQuotes, offset, []⟩ = .ok [⟨.string t, offset⟩] := by
  have hread : Quotation.read? (Quotation.encode t ++ ['"']) =
      some (t, (Quotation.encode t).length + 1) := Quotation.read?_encode t (by simp)
  rw [inQuotes, tokens_of_reads (.string hread), List.drop_eq_nil_of_le (by simp)]
  rfl

private theorem tokens_dotted (limit : Nat) (t : Text) (offset : Nat) :
    tokens limit ⟨'.' :: t.inQuotes, offset, []⟩ =
      .ok [⟨.glyph .dot, offset⟩, ⟨.string t, offset + 1⟩] := by
  have hdot : t.inQuotes.head? ≠ some '$' := by simp [inQuotes]
  rw [tokens_of_reads (.dot hdot), List.drop_zero, Nat.add_zero, tokens_inQuotes]
  rfl

theorem tokens_piece (h : t.Enclosable) (limit : Nat) (x : Name) (append : Bool) (offset : Nat)
    (r : Text) :
    tokens limit ⟨t.piece x append ++ r, offset, []⟩ =
      (tokens limit ⟨r, offset + (t.piece x append).length, []⟩).map
        (pieceToken x append t offset :: ·) := by
  have hextent := (h.pieceBody append).extent_eq limit r
  have htext : t.piece x append ++ r =
      '>' :: x.letter :: '<' :: (t.pieceBody append ++ '<' :: r) := by
    simp [piece]
  have hdrop : (x.letter :: '<' :: (t.pieceBody append ++ '<' :: r)).drop
      ((t.pieceBody append).length + 3) = r := by
    simp
  have hlength : offset + 1 + ((t.pieceBody append).length + 3) =
      offset + (t.piece x append).length := by
    simp [piece]
    omega
  rw [htext, tokens_of_reads (.block x hextent), hdrop, hlength, List.take_left]
  rfl

private theorem tokens_pieces {ts : List Text} (h : ∀ t ∈ ts, t.Enclosable) (limit : Nat) (x : Name)
    (offset : Nat) (r : Text) :
    tokens limit ⟨ts.flatMap (piece x true) ++ r, offset, []⟩ =
      (tokens limit ⟨r, offset + (ts.flatMap (piece x true)).length, []⟩).map
        (pieceTokens x offset ts ++ ·) := by
  induction ts generalizing offset with
  | nil =>
    change tokens limit ⟨r, offset, []⟩ = (tokens limit ⟨r, offset, []⟩).map ([] ++ ·)
    cases tokens limit _ <;> rfl
  | cons t ts ih =>
    obtain ⟨ht, hts⟩ := List.forall_mem_cons.1 h
    rw [List.flatMap_cons, List.append_assoc, tokens_piece ht, ih hts, List.length_append,
      ← Nat.add_assoc]
    cases tokens limit _ <;> rfl

theorem tokens_print {g : Glyph} (hg : g = .printNumber ∨ g = .printChar) (x : Name) (r : Text)
    (limit offset : Nat) :
    tokens limit ⟨g.toChar :: x.letter :: r, offset, []⟩ =
      (tokens limit ⟨r, offset + 2, []⟩).map
        ([⟨.glyph g, offset⟩, ⟨.variable x, offset + 1⟩] ++ ·) := by
  have hprint : Form.Reads limit [] offset g.toChar (x.letter :: r)
      (.ok ⟨some (.glyph g), 0⟩) := by
    rcases hg with rfl | rfl
    · exact .glyph rfl (by simp [Glyph.toChar]) (by simp [Glyph.toChar]) rfl
    · exact .glyph rfl (by simp [Glyph.toChar]) (by simp [Glyph.toChar]) rfl
  rw [tokens_of_reads hprint, List.drop_zero, tokens_of_reads (.mention x r), List.drop_zero]
  cases tokens limit ⟨r, offset + 2, []⟩ <;> rfl

private theorem tokens_printing (limit : Nat) (x : Name) (offset : Nat) :
    tokens limit ⟨printing x, offset, []⟩ = .ok (printingTokens x offset) := by
  have hextent : extent parentheses limit 0 ['$', x.letter, ')'] = .closed 2 := by
    rw [extent_other (by decide) (by decide), extent_other (x.letter_ne rfl) (x.letter_ne rfl)]
    rfl
  have hpredicate : '}' ∉ ['*', x.letter] := by
    simp [(x.letter_ne rfl : x.letter ≠ '}').symm]
  have hloop : tokens limit ⟨'?' :: ('[' :: (['!', '∑'] ++ ']' :: '{' :: (['*', x.letter] ++
      '}' :: '(' :: ['$', x.letter, ')']))), offset + 2, []⟩ = .ok [loopToken x (offset + 2)] :=
    tokens_of_reads (.conditional (by decide) hpredicate hextent)
  exact (tokens_print (.inl rfl) x _ limit offset).trans (congrArg (Except.map _) hloop)

private theorem printingTokens_unmarked :
    ∀ token ∈ printingTokens x offset, token.form ≠ .glyph .push := by
  simp [printingTokens, loopToken]

private theorem pieceTokens_unmarked (x : Name) (ts : List Text) (offset : Nat) :
    ∀ token ∈ pieceTokens x offset ts, token.form ≠ .glyph .push := by
  induction ts generalizing offset with
  | nil => exact List.forall_mem_nil _
  | cons t ts ih => exact List.forall_mem_cons.2 ⟨nofun, ih _⟩

end Fragment

open Fragment Text

private theorem programTokens_stringProgram {t : Text} {ts : List Text}
    (h : ∀ u ∈ t :: ts, u.Enclosable) (limit : Nat) (x : Name) (append : Bool) :
    ∃ o o', programTokens limit (stringProgram x append t ts) =
      .ok ([pieceToken x append t 0] ++ (pieceTokens x o ts ++ printingTokens x o')) := by
  obtain ⟨ht, hts⟩ := List.forall_mem_cons.1 h
  have htokens := tokens_piece ht limit x append 0 (ts.flatMap (piece x true) ++ printing x)
  rw [tokens_pieces hts, tokens_printing, ← stringProgram,
    ← ofSource_of_kept (stringProgram_kept h x append)] at htokens
  refine ⟨_, _, programTokens_eq_ok_iff.2 ⟨_, htokens, PushMarker.fuse_eq_self ?_⟩⟩
  · exact List.forall_mem_append.2 ⟨List.forall_mem_singleton.2 nofun, List.forall_mem_append.2
      ⟨pieceTokens_unmarked x ts _, printingTokens_unmarked⟩⟩

@[simp] theorem Value.toText_ofText (t : Text) : (Value.ofText t).toText = t := by
  have hcode : charOfCode ∘ codeOfChar = id := funext charOfCode_codeOfChar
  rw [ofText, toText, List.map_map, hcode, List.map_id]

variable {σ : Type} {limit offset : Nat} {c c' c₁ : Context σ} {x : Name}
  {texts texts' ts : List Text} {t u v : Text}

/-- On the way to the second context the texts are printed, and there `x` has the text `u`. -/
structure Context.Tells (x : Name) (texts : List Text) (u : Text) (c c' : Context σ) : Prop where
  depth : c'.depth = c.depth
  printed : c'.state.printed = texts.reverse ++ c.state.printed
  calls : c'.calls = (texts.map fun t => .notice (.output t)).reverse ++ c.calls
  value : c'.state.variables.get? x = some (.ofText u)

theorem Context.Tells.trans (h : c.Tells x texts u c₁) (h' : c₁.Tells x texts' v c') :
    c.Tells x (texts ++ texts') v c' where
  depth := h'.depth.trans h.depth
  printed := by simp [h'.printed, h.printed]
  calls := by simp [h'.calls, h.calls]
  value := h'.value

variable [Host σ]

/-- The work ends well when it is executed in the context, with the texts printed and the text `u`
in `x`. -/
def Work.Writes (limit : Nat) (c : Context σ) (x : Name) (texts : List Text) (u : Text) (w : Work) :
    Prop :=
  ∃ c', Executes limit w c c' none ∧ c.Tells x texts u c'

theorem Work.Writes.append {a b : List Token} (hc : c.Running) (hab : Parted a b)
    (ha : (Work.code a).Writes limit c x texts u)
    (hb : ∀ c₁, c.Tells x texts u c₁ → c₁.Running → (Work.code b).Writes limit c₁ x texts' v) :
    (Work.code (a ++ b)).Writes limit c x (texts ++ texts') v := by
  obtain ⟨c₁, h₁, t₁⟩ := ha
  obtain ⟨c₂, h₂, t₂⟩ := hb c₁ t₁ (h₁.running hc)
  exact ⟨c₂, (executes_append_iff hc hab).2 (.inr ⟨c₁, h₁, h₂⟩), t₁.trans t₂⟩

theorem parted_piece (append : Bool) (a : List Token) :
    Parted [pieceToken x append t offset] a := by
  intro token ht hprints
  cases ht
  cases hprints

private theorem writes_assigned (hc : c.Running) :
    (Work.code [pieceToken x false t offset]).Writes limit c x [] t := by
  have hacts : (pieceToken x false t offset).form.Acts limit c.state
      (c.state.assign x (.ofText t)) := .assign x c.state (tokens_inQuotes limit t _) rfl
  refine ⟨_, .does hc (.act [] hacts) (.finished _), rfl, rfl, rfl, ?_⟩
  simp

theorem writes_appended (hc : c.Running)
    (hu : (c.state.variables.get? x).getD (.ofText []) = .ofText u) :
    (Work.code [pieceToken x true t offset]).Writes limit c x [] (u ++ t) := by
  have hacts : (pieceToken x true t offset).form.Acts limit c.state
      { c.state with «variables» := Assignment.append x t c.state.variables } :=
    .append x c.state (tokens_dotted limit t _) rfl
  refine ⟨_, .does hc (.act [] hacts) (.finished _), rfl, rfl, rfl, ?_⟩
  have hempty : (c.state.variables.get? x).getD (.sequence []) = .ofText u := hu
  simp [Assignment.append, hempty, Value.ofText, Value.extend]

private theorem writes_pieces (hc : c.Running) (hu : c.state.variables.get? x = some (.ofText u)) :
    (Work.code (pieceTokens x offset ts)).Writes limit c x [] (u ++ ts.flatten) := by
  induction ts generalizing c u offset with
  | nil => exact ⟨c, .finished c, rfl, rfl, rfl, by simpa using hu⟩
  | cons t ts ih =>
    have hfirst : (Work.code [pieceToken x true t offset]).Writes limit c x [] (u ++ t) :=
      writes_appended hc (by rw [hu, Option.getD_some])
    rw [List.flatten_cons, ← List.append_assoc]
    exact hfirst.append hc (parted_piece true _) fun c₁ h₁ hc₁ => ih hc₁ h₁.value

private theorem writes_whole {o o' : Nat} (hc : c.Running)
    (hu : c.state.variables.get? x = some (.ofText u)) :
    (Work.code [⟨.glyph .printNumber, o⟩, ⟨.variable x, o'⟩]).Writes limit c x [u] u := by
  have hprints := Glyph.Prints.whole o' [] hu
  rw [Value.toText_ofText] at hprints
  exact ⟨_, .does hc (.print o hprints) (.finished _), rfl, rfl, rfl, hu⟩

/-- One turn prints the first character and moves it to the end. -/
theorem writes_turn {a : Char} (hc : c.Running) (hd : c.depth < limit)
    (hu : c.state.variables.get? x = some (.ofText (a :: u))) :
    (Work.fragment ⟨['$', x.letter], offset, []⟩).Writes limit c x [[a]] (u ++ [a]) := by
  have hprints := Glyph.Prints.front (offset + 1) [] hu
  have hfront : (Value.ofText (a :: u)).front?.map (fun n => [charOfCode n]) = some [a] :=
    congrArg (fun d => some [d]) (charOfCode_codeOfChar a)
  rw [hfront] at hprints
  refine ⟨_, .entered (tokens_print (.inr rfl) x [] limit offset) hd <|
    .does hc (.print offset hprints) (.finished _), rfl, rfl, rfl, ?_⟩
  simp [hu, Value.ofText]

/-- As many turns as the front part of the text is long move it to the end. -/
theorem writes_turns (hc : c.Running) (hd : c.depth < limit)
    (hu : c.state.variables.get? x = some (.ofText (u ++ v))) :
    (Work.times u.length ⟨['$', x.letter], offset, []⟩).Writes limit c x (u.map ([·]))
      (v ++ u) := by
  induction u generalizing c v with
  | nil => exact ⟨c, .timesOver _ c, rfl, rfl, rfl, by simpa using hu⟩
  | cons a u ih =>
    have hfront : c.state.variables.get? x = some (.ofText (a :: (u ++ v))) := hu
    have hturn : (Work.fragment ⟨['$', x.letter], offset, []⟩).Writes limit c x [[a]]
        (u ++ v ++ [a]) := writes_turn hc hd hfront
    obtain ⟨c₁, h₁, t₁⟩ := hturn
    have hu₁ : c₁.state.variables.get? x = some (.ofText (u ++ (v ++ [a]))) := by
      rw [t₁.value, List.append_assoc]
    obtain ⟨c₂, h₂, t₂⟩ := ih (h₁.running hc) (t₁.depth ▸ hd) hu₁
    refine ⟨c₂, .times h₁ h₂, ?_⟩
    rw [List.append_cons]
    exact t₁.trans t₂

/-- The loop turns the sequence around once. -/
theorem writes_loop (hc : c.Running) (hd : c.depth < limit)
    (hu : c.state.variables.get? x = some (.ofText u)) :
    (Work.code [loopToken x offset]).Writes limit c x (u.map ([·])) u := by
  have helements : Condition.elements c.state ⟨['*', x.letter], offset + 6, []⟩ = u.length := by
    simp [Condition.elements, Condition.target?, Name.leading?, hu, Value.ofText]
  have hnests : (loopToken x offset).form.Nests limit c.state
      (.times u.length ⟨['$', x.letter], offset + 10, []⟩) id :=
    helements ▸ .each _ _ c.state
  have hturns : (Work.times u.length ⟨['$', x.letter], offset + 10, []⟩).Writes limit c x
      (u.map ([·])) ([] ++ u) := writes_turns hc hd (by rwa [List.append_nil])
  obtain ⟨c', h, htells⟩ := hturns
  exact ⟨c', (executes_conditional_iff hc hnests).2 h, htells⟩

private theorem writes_printing (hc : c.Running) (hd : c.depth < limit)
    (hu : c.state.variables.get? x = some (.ofText u)) :
    (Work.code (printingTokens x offset)).Writes limit c x (u :: u.map ([·])) u :=
  (writes_whole hc hu).append hc (fun _ _ _ => rfl) fun _ h₁ hc₁ =>
    writes_loop hc₁ (h₁.depth ▸ hd) h₁.value

private theorem writes_first (hc : c.Running) (hx : c.state.variables.get? x = none)
    (append : Bool) : (Work.code [pieceToken x append t offset]).Writes limit c x [] t := by
  cases append with
  | false => exact writes_assigned hc
  | true =>
    have happended : (Work.code [pieceToken x true t offset]).Writes limit c x [] ([] ++ t) :=
      writes_appended hc (by rw [hx, Option.getD_none])
    exact happended

/-- A string that is built from pieces is printed in one piece and then character by character, and
is what it was at the end. The program has no fault, under whatever settings it runs. -/
theorem built_string_is_printed (settings : Settings) (host : σ) (x : Name) (append : Bool)
    (t : Text) (ts : List Text) (h : ∀ u ∈ t :: ts, u.Enclosable) :
    ∃ steps report,
      runProgram settings (stringProgram x append t ts) host steps = some report ∧
      report.fault = none ∧
      report.state.output = (t :: ts).flatten :: (t :: ts).flatten.map ([·]) ∧
      report.calls = report.state.output.map (fun u => .notice (.output u)) ∧
      report.state.variables.get? x = some (.ofText (t :: ts).flatten) := by
  obtain ⟨o, o', htokens⟩ := programTokens_stringProgram h settings.limit x append
  let c : Context σ := ⟨0, {}, host, []⟩
  have hbuilt : (Work.code ([pieceToken x append t 0] ++
      (pieceTokens x o ts ++ printingTokens x o'))).Writes settings.limit c x
        ([] ++ ([] ++ (t :: ts).flatten :: (t :: ts).flatten.map ([·]))) (t :: ts).flatten := by
    have hc : c.Running := rfl
    refine (writes_first hc rfl append).append hc (parted_piece append _) fun c₁ h₁ hc₁ => ?_
    refine (writes_pieces hc₁ h₁.value).append hc₁ (fun _ _ _ => rfl) fun c₂ h₂ hc₂ => ?_
    have hdepth : c₂.depth = 0 := h₂.depth.trans h₁.depth
    exact writes_printing hc₂ (hdepth ▸ settings.limit_pos) h₂.value
  obtain ⟨c', hs, htells⟩ := hbuilt
  have hprinted : c'.state.printed ≠ [] := by simp [htells.printed]
  obtain ⟨steps, report, hrun, hfault, hstate, hcalls⟩ := hs.report htokens hprinted
  have houtput : c'.state.output = (t :: ts).flatten :: (t :: ts).flatten.map ([·]) := by
    simp [State.output, htells.printed, c]
  refine ⟨steps, report, hrun, hfault, hstate ▸ houtput, ?_, hstate ▸ htells.value⟩
  rw [hcalls, hstate, houtput, htells.calls]
  simp [c]

/-- Pieces with a quote, with a `>` at the end and with nothing in them. -/
theorem built_string_is_printed_with_quote :
    let x : Name := ⟨'s', rfl⟩
    let t : Text := ['a', '"', '>']
    let ts : List Text := [[], ['b']]
    let host : Recorder := { queue := [] }
    (∀ u ∈ t :: ts, u.Enclosable) ∧
    stringProgram x false t ts = ['>', 's', '<', '"', 'a', '"', '"', '>', '"', '<', '>', 's', '<',
      '.', '"', '"', '<', '>', 's', '<', '.', '"', 'b', '"', '<', '#', 's', '?', '[', '!', '∑', ']',
      '{', '*', 's', '}', '(', '$', 's', ')'] ∧
    ∃ steps report, runProgram {} (stringProgram x false t ts) host steps = some report ∧
      report.fault = none ∧
      report.state.output = [['a', '"', '>', 'b'], ['a'], ['"'], ['>'], ['b']] ∧
      report.state.variables.get? x = some (.sequence [97, 34, 62, 98]) := by
  intro x t ts host
  have henclosable : ∀ u ∈ t :: ts, u.Enclosable := by
    have hkept : ∀ c ∈ t, isSeparator c = false :=
      List.forall_mem_cons.2 ⟨rfl, List.forall_mem_cons.2 ⟨rfl, List.forall_mem_singleton.2 rfl⟩⟩
    have ht : t.Enclosable := ⟨hkept, by decide, by decide⟩
    have hempty : Enclosable [] := ⟨List.forall_mem_nil _, by decide, by decide⟩
    have hb : Enclosable ['b'] := ⟨List.forall_mem_singleton.2 rfl, by decide, by decide⟩
    simp [ts, ht, hempty, hb]
  obtain ⟨steps, report, hrun, hfault, houtput, -, hvalue⟩ :=
    built_string_is_printed {} host x false t ts henclosable
  exact ⟨henclosable, rfl, steps, report, hrun, hfault, houtput, hvalue⟩

end BlueNexus
