import BlueNexus.Host.Recorder
import BlueNexus.Proofs.Invariants

/-!
# Sequences are spelled by the source

The elements of a sequence come from the strings of a program, and these from its text. So a
sequence is the code points of characters of the source, and writing it as a text loses nothing of
it (`sequences_spelled_by_source`).
-/

namespace BlueNexus

@[simp] theorem toInt_codeOfChar (c : Char) : (codeOfChar c).toInt = c.toNat := by
  have hvalid : c.toNat < 1114112 := by
    have h : c.toNat.isValidChar := c.valid
    simp only [Nat.isValidChar] at h
    omega
  exact Int64.toInt_ofNat_of_lt (by omega)

@[simp] theorem charOfCode_codeOfChar (c : Char) : charOfCode (codeOfChar c) = c := by
  have hvalid : c.toNat.isValidChar := c.valid
  simp [charOfCode, hvalid]

/-- A sequence of code points of characters of the text, or a scalar. -/
def Value.SpelledIn (whole : Text) : Value → Prop
  | .scalar _ => True
  | .sequence items => items ⊆ whole.map codeOfChar

namespace Value.SpelledIn

variable {whole t : Text} {v : Value}

theorem ofText (h : t ⊆ whole) : (Value.ofText t).SpelledIn whole :=
  List.map_subset codeOfChar h

theorem rotate (h : v.SpelledIn whole) : v.rotate.SpelledIn whole := by
  cases v with
  | scalar n => trivial
  | sequence items =>
    cases items with
    | nil => exact h
    | cons a r =>
      rw [Value.rotate_sequence_cons]
      exact fun n hn => h (by simpa [or_comm] using hn)

theorem dropFront (h : v.SpelledIn whole) : v.dropFront.SpelledIn whole := by
  cases v with
  | scalar n => trivial
  | sequence items => exact fun n hn => h (List.mem_of_mem_tail hn)

theorem mapScalar (f : Int64 → Int64) (h : v.SpelledIn whole) :
    (v.mapScalar f).SpelledIn whole := by
  cases v with
  | scalar n => trivial
  | sequence items => exact h

theorem extend (ht : t ⊆ whole) (h : v.SpelledIn whole) :
    (v.extend (t.map codeOfChar)).SpelledIn whole := by
  cases v with
  | scalar n => exact ofText ht
  | sequence items => exact List.append_subset.2 ⟨h, ofText ht⟩

/-- The text of a sequence has characters of the source, and the sequence is that of its text. -/
theorem toText {items : List Int64} (h : (sequence items).SpelledIn whole) :
    (sequence items).toText ⊆ whole ∧ Value.ofText (sequence items).toText = .sequence items := by
  constructor
  · intro c hc
    obtain ⟨n, hn, rfl⟩ := List.mem_map.1 hc
    obtain ⟨d, hd, rfl⟩ := List.mem_map.1 (h hn)
    rwa [charOfCode_codeOfChar]
  · have hcode : ∀ n ∈ items, codeOfChar (charOfCode n) = n := by
      intro n hn
      obtain ⟨d, -, rfl⟩ := List.mem_map.1 (h hn)
      rw [charOfCode_codeOfChar]
    have hitems : items.map (codeOfChar ∘ charOfCode) = items.map id := List.map_congr_left hcode
    rw [Value.ofText, Value.toText, List.map_map, hitems, List.map_id]

end Value.SpelledIn

/-- Every bound value meets the condition. -/
def Bindings.All (P : Value → Prop) (t : Bindings) : Prop := ∀ x v, t.get? x = some v → P v

namespace Bindings

variable {P : Value → Prop} {t : Bindings}

theorem All.set (h : t.All P) (x : Name) {v : Value} (hv : P v) : (t.set x v).All P := by
  intro y w hw
  rw [get?_set] at hw
  split at hw
  · cases hw
    exact hv
  · exact h y w hw

theorem Stores.all {x : Name} {t' : Bindings} (hs : t.Stores x t') (h : t.All P)
    (hP : ∀ n, P (.scalar n)) : t'.All P := by
  cases hs with
  | nothing => exact h
  | scalar n => exact h.set x (hP n)

theorem All.update (h : t.All P) (x : Name) {f : Value → Value} (hf : ∀ v, P v → P (f v)) :
    (t.update x f).All P := by
  rw [Bindings.update]
  split
  · exact h
  · next v hv => exact h.set x (hf v (h x v hv))

theorem All.init (h : t.All P) (x : Name) {v : Value} (hv : P v) : (t.init x v).All P := by
  rw [Bindings.init]
  split
  · exact h.set x hv
  · exact h

end Bindings

open Bindings

namespace Quotation

private theorem subset_encode (t : Text) : t ⊆ encode t := by
  induction t with
  | nil => simp
  | cons c t ih =>
    refine List.cons_subset.2 ⟨?_, fun d hd => ?_⟩
    · by_cases hc : c = '"' <;> simp [encode, hc]
    · by_cases hc : c = '"' <;> simp [encode, hc, ih hd]

theorem encode_subset (t : Text) : encode t ⊆ t := by
  induction t with
  | nil => exact List.Subset.refl _
  | cons c t ih =>
    rw [encode]
    split
    · next hc =>
      subst hc
      exact List.cons_subset.2 ⟨List.mem_cons_self, List.cons_subset_cons _ ih⟩
    · exact List.cons_subset_cons c ih

private theorem subset_of_read? {t s : Text} {n : Nat} (h : read? t = some (s, n)) : s ⊆ t := by
  rw [(eq_of_read? h).2]
  exact List.subset_append_of_subset_left _ (subset_encode s)

end Quotation

/-- The strings in a token have characters of the text only. -/
structure Token.SpelledIn (whole : Text) (t : Token) : Prop where
  string : ∀ s, t.form = .string s → s ⊆ whole
  carried : ∀ f ∈ t.form.fragments, f.text ⊆ whole

variable {whole : Text} {limit : Nat} {s s' : State}

theorem Token.SpelledIn.mono {t : Token} {text : Text} (h : t.SpelledIn text)
    (hsub : text ⊆ whole) : t.SpelledIn whole :=
  ⟨fun s hs => List.Subset.trans (h.string s hs) hsub,
    fun f hf => List.Subset.trans (h.carried f hf) hsub⟩

theorem Fragment.spelled_of_tokens {f : Fragment} {ts : List Token}
    (h : f.tokens limit = .ok ts) : ∀ t ∈ ts, t.SpelledIn f.text := by
  intro t ht
  obtain ⟨a, c, r, n, hf, -, hreads⟩ := (Fragment.scan_of_tokens h).of_mem ht
  have hr : r ⊆ f.text := by
    rw [hf]
    exact List.subset_append_of_subset_right a (List.subset_cons_self c r)
  constructor
  · intro s hs
    rw [hs] at hreads
    cases hreads with
    | string h => exact List.Subset.trans (Quotation.subset_of_read? h) hr
  · intro g hg
    obtain ⟨k, -, hslice⟩ := hreads.carried hg
    exact List.Subset.trans hslice.isInfix.subset hr

namespace Assignment

variable {ts : List Token}

private theorem Meaning.value_cases {v : Value} (h : Meaning.ofTokens ts = .value v) :
    (∃ n, v = .scalar n) ∨ ∃ s, ∃ t ∈ ts, t.form = .string s ∧ v = .ofText s := by
  unfold Meaning.ofTokens at h
  split at h <;> cases h
  · exact .inl ⟨_, rfl⟩
  · exact .inr ⟨_, _, List.mem_cons_self, rfl, rfl⟩

private theorem Meaning.exists_string {s : Text} (h : Meaning.ofTokens ts = .append s) :
    ∃ t ∈ ts, t.form = .string s := by
  unfold Meaning.ofTokens at h
  split at h <;> cases h
  exact ⟨_, List.mem_cons_of_mem _ List.mem_cons_self, rfl⟩

end Assignment

/-- Every sequence that is bound is spelled by the text. -/
def State.SpelledIn (whole : Text) (s : State) : Prop := s.variables.All (Value.SpelledIn whole)

theorem State.SpelledIn.of_stores (h : s.SpelledIn whole) {x : Name}
    (hs : s.variables.Stores x s'.variables) : s'.SpelledIn whole :=
  hs.all h fun _ => trivial

theorem State.SpelledIn.rotate (h : s.SpelledIn whole) (x : Name) :
    (s.rotate x).SpelledIn whole :=
  All.update h x fun _ => Value.SpelledIn.rotate

theorem State.SpelledIn.drop (h : s.SpelledIn whole) (param : Text) :
    (s.drop param).SpelledIn whole := by
  obtain ⟨stack, hdrop⟩ | ⟨x, -, hdrop⟩ := s.drop_cases param
  · rw [hdrop]
    exact h
  · rw [hdrop]
    exact All.update h x fun _ => Value.SpelledIn.dropFront

theorem Form.Acts.spelled {t : Token} (h : t.form.Acts limit s s') (ht : t.SpelledIn whole)
    (hs : s.SpelledIn whole) : s'.SpelledIn whole := by
  have strings : ∀ {body : Fragment} {us : List Token} {u : Token} {text : Text},
      body ∈ t.form.fragments → body.tokens limit = .ok us → u ∈ us → u.form = .string text →
        text ⊆ whole :=
    fun hbody hus hu htext =>
      List.Subset.trans ((Fragment.spelled_of_tokens hus _ hu).string _ htext) (ht.carried _ hbody)
  generalize hf : t.form = f at h strings
  cases h with
  | @pushVariable x s v _ =>
    cases v.front? with
    | none => exact hs
    | some n => exact hs.rotate x
  | copy x => exact hs.of_stores (s.stores_copyInto x)
  | assign x s hus hm =>
    rcases Assignment.Meaning.value_cases hm with ⟨n, rfl⟩ | ⟨text, u, hu, htext, rfl⟩
    · exact All.set hs x trivial
    · exact All.set hs x (.ofText (strings List.mem_cons_self hus hu htext))
  | append x s hus hm =>
    obtain ⟨u, hu, htext⟩ := Assignment.Meaning.exists_string hm
    have hsub := strings List.mem_cons_self hus hu htext
    exact (All.init hs x (List.nil_subset _)).update x fun _ => Value.SpelledIn.extend hsub
  | expression x =>
    have hinit := All.init (v := .scalar 0) hs x trivial
    exact hinit.update x fun _ => Value.SpelledIn.mapScalar _
  | drop param => exact hs.drop param
  | rotate x => exact hs.rotate x
  | _ => exact hs

theorem Form.Asks.spelled {f : Form} {resume : Int64 → State} (h : f.Asks limit s resume)
    (hs : s.SpelledIn whole) (n : Int64) : (resume n).SpelledIn whole := by
  cases h with
  | pushInput => exact hs
  | input x => exact All.set hs x trivial
  | appendInput x => exact hs.of_stores (Assignment.stores_appendInput x n _)

theorem Glyph.Prints.spelled {g : Glyph} {ts us : List Token} {text : Option Text}
    (h : g.Prints ts s text us s') (hs : s.SpelledIn whole) : s'.SpelledIn whole := by
  cases h with
  | @front x => exact hs.rotate x
  | _ => exact hs

private theorem Machine.invariant_spelledIn (limit : Nat) (whole : Text) :
    Invariant limit (Token.SpelledIn whole) (·.text ⊆ whole) (State.SpelledIn whole) where
  carried ht := ht.carried
  read hf h t ht := (Fragment.spelled_of_tokens h t ht).mono hf
  fused hu h := by
    rcases PushMarker.fused?_cases h with ⟨-, ht⟩ | ⟨n, -, ht⟩ | ⟨x, -, ht⟩ <;>
      exact ⟨by simp [ht], by simp [ht, Form.fragments]⟩
  acts ht hs h := h.spelled ht hs
  asks _ hs h n := h.spelled hs n
  prints hs h := h.spelled hs
  printed _ hs := hs
  stores x hs := hs.of_stores (State.stores_popInto x _)

/-- A print of a variable shows characters of the text if its sequence is spelled by it. -/
theorem Machine.Steps.subset_of_tell {g : Glyph} {x : Name} {items : List Int64} {next : Machine}
    {depth o o' : Nat} {ts : List Token} {rest : List Task} {text : Text}
    (hsteps : Steps limit (.code depth (⟨.glyph g, o⟩ :: ⟨.variable x, o'⟩ :: ts) :: rest) s
      (.tell (.output text) next))
    (hg : g = .printNumber ∨ g = .printChar)
    (hx : s.variables.get? x = some (.sequence items))
    (hs : (Value.sequence items).SpelledIn whole) : text ⊆ whole := by
  cases hsteps with
  | snapshot depth ts rest h => cases h
  | print depth o rest h =>
    generalize hshown : some text = shown at h
    cases h with
    | newline => simp at hg
    | topNumber _ h | topChar _ h => exact absurd rfl (h x o' ts)
    | whole _ _ hv =>
      cases hx.symm.trans hv
      cases hshown
      exact hs.toText.1
    | front _ _ hv =>
      cases hx.symm.trans hv
      cases items with
      | nil => cases hshown
      | cons a r =>
        cases hshown
        refine List.Subset.trans ?_ hs.toText.1
        simp [Value.toText]

/-- At any time in a run a sequence is spelled by characters of the source that separate nothing,
and its text is that sequence again. A print of it shows no other characters. -/
theorem sequences_spelled_by_source {σ : Type} [Host σ] (settings : Settings) (source : Text)
    (host : σ) :
    (∀ s x items, State.OccursIn settings source host s →
      s.variables.get? x = some (.sequence items) →
        (∀ n ∈ items, ∃ c ∈ (Fragment.ofSource source).text,
          Fragment.isSeparator c = false ∧ n.toInt = c.toNat) ∧
        Value.ofText (Value.sequence items).toText = .sequence items) ∧
    ∀ ts z depth g o x o' us rest items text next,
      programTokens settings.limit source = .ok ts →
      (Session.start ts host).Reaches settings.limit z → g = .printNumber ∨ g = .printChar →
      z.machine.tasks = .code depth (⟨.glyph g, o⟩ :: ⟨.variable x, o'⟩ :: us) :: rest →
      z.machine.state.variables.get? x = some (.sequence items) →
      z.machine.step settings.limit = .tell (.output text) next →
        text ⊆ (Fragment.ofSource source).text ∧ ('\uFFFD' ∈ text → '\uFFFD' ∈ source) := by
  have hI := Machine.invariant_spelledIn settings.limit (Fragment.ofSource source).text
  have hempty : State.SpelledIn (Fragment.ofSource source).text {} := by
    intro x v hv
    cases hv
  constructor
  · intro s x items hs hx
    have hspelled := hI.occurs (fun s hs => hs) (List.Subset.refl _) hempty hs x _ hx
    refine ⟨fun n hn => ?_, hspelled.toText.2⟩
    obtain ⟨c, hc, rfl⟩ := List.mem_map.1 (hspelled hn)
    exact ⟨c, hc, Fragment.ofSource_text_mem hc, toInt_codeOfChar c⟩
  · intro ts z depth g o x o' us rest items text next hts hz hg htasks hx hstep
    have hspelled := (hI.reaches hts (List.Subset.refl _) hempty hz).state x _ hx
    have hsteps := Machine.steps_step settings.limit z.machine
    rw [htasks, hstep] at hsteps
    have htext := hsteps.subset_of_tell hg hx hspelled
    exact ⟨htext, fun h => List.mem_of_mem_filter (htext h)⟩

theorem sequences_spelled_by_source_with_quote :
    let source := ['>', 's', '<', '"', 'a', '"', '"', 'b', '"', '<', '>', 's', '<', '.', '"', 'c',
      '"', '<', '#', 's']
    let settings : Settings := {}
    let host : Recorder := { queue := [] }
    let s : Name := ⟨'s', rfl⟩
    let quoted := Value.sequence [97, 34, 98]
    (∃ state : State, state.OccursIn settings source host ∧ state.variables.get? s = some quoted ∧
      Value.ofText quoted.toText = quoted) ∧
    ∃ ts z text next, (Session.start ts host).Reaches settings.limit z ∧
      z.machine.step settings.limit = .tell (.output text) next ∧ text = ['a', '"', 'b', 'c'] ∧
        text ⊆ (Fragment.ofSource source).text := by
  intro source settings host s quoted
  obtain ⟨hvalue, hprint⟩ := sequences_spelled_by_source settings source host
  let first : Token := ⟨.block s ⟨['"', 'a', '"', '"', 'b', '"'], 3, []⟩, 0⟩
  let second : Token := ⟨.block s ⟨['.', '"', 'c', '"'], 13, []⟩, 10⟩
  let shown : List Token := [⟨.glyph .printNumber, 18⟩, ⟨.variable s, 19⟩]
  have hts : programTokens settings.limit source = .ok (first :: second :: shown) := rfl
  have hassigned : (Session.start (first :: second :: shown) host).Reaches settings.limit
      ⟨⟨[.code 0 (second :: shown)], ({} : State).assign s quoted⟩, host, []⟩ := .single rfl
  have happended : (Session.start (first :: second :: shown) host).Reaches settings.limit
      ⟨⟨[.code 0 shown], ({} : State).assign s (.sequence [97, 34, 98, 99])⟩, host, []⟩ :=
    hassigned.tail rfl
  have hoccurs : State.OccursIn settings source host (({} : State).assign s quoted) :=
    .during hts hassigned
  refine ⟨⟨_, hoccurs, rfl, (hvalue _ s _ hoccurs rfl).2⟩, _, _, _, _, happended, rfl, rfl, ?_⟩
  exact (hprint _ _ 0 .printNumber 18 s 19 [] [] _ _ _ hts happended (.inl rfl) rfl rfl rfl).1

end BlueNexus
