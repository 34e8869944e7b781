import Mathlib.Data.List.Basic
import Std.Data.String.ToNat
import TreePack.Dump.Basic

namespace TreePack

/-- A list is cut in only one way in front of the first element that lacks a property. -/
theorem append_cut {α : Type} {P : α → Prop} {w v R S : List α} (hw : ∀ c ∈ w, P c) (hv : ∀ c ∈ v, P c)
    (hR : ∀ c ∈ R.head?, ¬P c) (hS : ∀ c ∈ S.head?, ¬P c) (h : w ++ R = v ++ S) : w = v ∧ R = S := by
  induction w generalizing v with
  | nil =>
    cases v with
    | nil => exact ⟨rfl, h⟩
    | cons d v =>
      rw [List.nil_append] at h
      -- One side ends its front part here, and the other goes on with an element of it.
      exact absurd (hv d List.mem_cons_self) (hR d (by rw [h]; rfl))
  | cons c w ih =>
    cases v with
    | nil =>
      rw [List.nil_append] at h
      exact absurd (hw c List.mem_cons_self) (hS c (by rw [← h]; rfl))
    | cons d v =>
      obtain ⟨rfl, hrest⟩ := List.cons.inj h
      obtain ⟨rfl, hRS⟩ := ih (fun x hx => hw x (List.mem_cons_of_mem _ hx))
        (fun x hx => hv x (List.mem_cons_of_mem _ hx)) hrest
      exact ⟨rfl, hRS⟩

/-! ### Characters of numbers, texts and types -/

def Avoids (marks w : List Char) : Prop := ∀ c ∈ w, c ∉ marks

instance (marks w : List Char) : Decidable (Avoids marks w) := List.decidableBAll _ w

theorem Avoids.append {marks v w : List Char} (hv : Avoids marks v) (hw : Avoids marks w) :
    Avoids marks (v ++ w) :=
  List.forall_mem_append.mpr ⟨hv, hw⟩

theorem Avoids.mono {marks marks' w : List Char} (h : Avoids marks w) (hsub : marks' ⊆ marks) :
    Avoids marks' w :=
  fun c hc hmem => h c hc (hsub hmem)

theorem isDigit_of_mem_repr {n : Nat} {c : Char} (h : c ∈ n.repr.toList) : c.isDigit = true := by
  rw [Nat.toList_repr] at h
  exact Nat.isDigit_of_mem_toDigits (by decide) (by decide) h

/-- A number is written without characters that are no digits. -/
theorem avoids_repr {marks : List Char} (h : marks.all (!·.isDigit) = true) (n : Nat) :
    Avoids marks n.repr.toList := by
  intro c hc hmem
  have hnone := List.all_eq_true.mp h c hmem
  rw [isDigit_of_mem_repr hc] at hnone
  cases hnone

abbrev Solid (w : List Char) : Prop := Avoids [' ', '\n'] w

theorem Solid.ne {w : List Char} (h : Solid w) {c : Char} (hc : c ∈ w) : c ≠ ' ' ∧ c ≠ '\n' := by
  have hnot := h c hc
  rw [List.mem_cons, List.mem_singleton, not_or] at hnot
  exact hnot

/-- Numerals contain no blanks. -/
theorem solid_repr (n : Nat) : Solid n.repr.toList := avoids_repr (by decide) n

def Text.Plain (t : Text) : Prop := ∃ s, Utf8.decode? t.bytes = some s ∧ ' ' ∉ s.toList ∧ '\n' ∉ s.toList

/-- A plain text is displayed without blanks and line breaks. -/
theorem Text.Plain.solid {t : Text} (h : t.Plain) : Solid t.display.toList := by
  obtain ⟨s, hs, hblank, hend⟩ := h
  have hdisplay : t.display = s := by rw [display, Utf8.decodeLossy, hs, Option.getD_some]
  rw [hdisplay]
  intro c hc hmem
  rw [List.mem_cons, List.mem_singleton] at hmem
  obtain rfl | rfl := hmem
  · exact hblank hc
  · exact hend hc

/-- Decoding is undone by encoding again. -/
theorem Utf8.toByteArray_of_decode? {bytes : List UInt8} {s : String} (h : decode? bytes = some s) :
    s.toByteArray = bytes.toByteArray := by
  unfold decode? String.fromUTF8? at h
  split at h
  · cases h
    rfl
  · cases h

/-- Well-formed texts that are shown alike are equal. -/
theorem Text.Plain.eq_of_display {t t' : Text} (h : t.Plain) (h' : t'.Plain) (heq : t.display = t'.display) :
    t = t' := by
  obtain ⟨s, hs, -, -⟩ := h
  obtain ⟨s', hs', -, -⟩ := h'
  rw [display, display, Utf8.decodeLossy, Utf8.decodeLossy, hs, hs', Option.getD_some, Option.getD_some] at heq
  subst heq
  have hbytes : t.bytes = t'.bytes := by
    rw [← List.toByteArray_inj, ← Utf8.toByteArray_of_decode? hs, Utf8.toByteArray_of_decode? hs']
  cases t
  cases t'
  cases hbytes
  rfl

namespace TypeDesc

def shown (t : TypeDesc) : TypeDesc := { t with structId := if t.base = .struct then t.structId else 0 }

theorem render_shown (t : TypeDesc) : t.shown.render = t.render := by
  unfold render shown
  by_cases hstruct : t.base = .struct <;> simp only [hstruct, if_true, if_false]

def baseText (t : TypeDesc) : String :=
  if t.base = .struct then "struct#" ++ t.structId.toNat.repr else t.base.name

def arrayText (t : TypeDesc) : String := if t.arrayLen = 0 then "" else "[" ++ t.arrayLen.toNat.repr ++ "]"

/-- A type is rendered as its stars, its base and its array length. -/
theorem toList_render (t : TypeDesc) :
    t.render.toList = List.replicate t.pointers.toNat '*' ++ (t.baseText.toList ++ t.arrayText.toList) := by
  rw [render, String.toList_append, String.toList_append, String.toList_ofList, List.append_assoc]
  rfl

/-- No special character stands in the base of a type. -/
theorem avoids_baseText (t : TypeDesc) : Avoids [' ', '\n', '*', '['] t.baseText.toList := by
  unfold baseText
  split
  · rw [String.toList_append]
    exact Avoids.append (by decide) (avoids_repr (by decide) _)
  · cases t.base <;> decide

theorem avoids_arrayText (t : TypeDesc) : Avoids [' ', '\n', '*'] t.arrayText.toList := by
  unfold arrayText
  split
  · decide
  · rw [String.toList_append, String.toList_append]
    exact ((show Avoids _ _ by decide).append (avoids_repr (by decide) _)).append (by decide)

theorem solid_render (t : TypeDesc) : Solid t.render.toList := by
  rw [toList_render]
  have hstars : Solid (List.replicate t.pointers.toNat '*') := by
    intro c hc
    rw [List.eq_of_mem_replicate hc]
    decide
  exact hstars.append ((t.avoids_baseText.mono (by decide)).append (t.avoids_arrayText.mono (by decide)))

/-- The base of a type is read back from its text, with the structure only where the base is one. -/
theorem baseText_inj {t t' : TypeDesc} (h : t.baseText = t'.baseText) :
    t.base = t'.base ∧ (t.base = .struct → t.structId = t'.structId) := by
  have hnames : ∀ b b' : BaseType, b.name = b'.name → b = b' := by
    intro b b'
    cases b <;> cases b' <;> decide
  -- No name of a base has the mark that a structure's index follows.
  have hhash : ∀ b : BaseType, ∀ rest : String, b.name ≠ "struct#" ++ rest := by
    intro b rest heq
    have hmem : '#' ∈ b.name.toList := by
      rw [heq, String.toList_append]
      exact List.mem_append_left _ (by decide)
    revert hmem
    cases b <;> decide
  unfold baseText at h
  by_cases hs : t.base = .struct <;> by_cases hs' : t'.base = .struct
  · rw [if_pos hs, if_pos hs', String.append_right_inj, Nat.repr_inj] at h
    exact ⟨hs.trans hs'.symm, fun _ => UInt32.toNat_inj.mp h⟩
  · rw [if_pos hs, if_neg hs'] at h
    exact absurd h.symm (hhash _ _)
  · rw [if_neg hs, if_pos hs'] at h
    exact absurd h (hhash _ _)
  · rw [if_neg hs, if_neg hs'] at h
    exact ⟨hnames _ _ h, fun hstruct => absurd hstruct hs⟩

/-- The array length is read back; none is written for zero. -/
theorem arrayText_inj {t t' : TypeDesc} (h : t.arrayText = t'.arrayText) : t.arrayLen = t'.arrayLen := by
  have hopen : ∀ n : Nat, "[" ++ n.repr ++ "]" ≠ "" := by
    intro n heq
    have hlength := congrArg String.length heq
    rw [String.length_append, String.length_append] at hlength
    have hbracket : "]".length = 1 := rfl
    have hempty : "".length = 0 := rfl
    omega
  unfold arrayText at h
  by_cases hz : t.arrayLen = 0 <;> by_cases hz' : t'.arrayLen = 0
  · rw [hz, hz']
  · rw [if_pos hz, if_neg hz'] at h
    exact absurd h.symm (hopen _)
  · rw [if_neg hz, if_pos hz'] at h
    exact absurd h (hopen _)
  · rw [if_neg hz, if_neg hz', String.append_left_inj, String.append_right_inj, Nat.repr_inj] at h
    exact UInt64.toNat_inj.mp h

/-- Types that are written alike are shown alike. -/
theorem shown_of_render {t t' : TypeDesc} (h : t.render = t'.render) : t.shown = t'.shown := by
  have hchars := String.toList_inj.mpr h
  rw [toList_render, toList_render] at hchars
  have hstar (u : TypeDesc) : ∀ c ∈ (u.baseText.toList ++ u.arrayText.toList).head?, ¬c = '*' := by
    rintro c hc rfl
    obtain hc | hc := List.mem_append.mp (List.mem_of_mem_head? hc)
    · exact u.avoids_baseText _ hc (by decide)
    · exact u.avoids_arrayText _ hc (by decide)
  have hbracket (u : TypeDesc) : ∀ c ∈ u.baseText.toList, c ≠ '[' := by
    rintro c hc rfl
    exact u.avoids_baseText _ hc (by decide)
  have hopen (u : TypeDesc) : ∀ c ∈ u.arrayText.toList.head?, ¬c ≠ '[' := by
    intro c hc
    unfold arrayText at hc
    split at hc
    · cases hc
    · rw [String.toList_append, String.toList_append] at hc
      exact not_not.mpr (Option.some.inj hc).symm
  -- The stars stop where the base begins, and the base stops at the bracket of an array.
  obtain ⟨hpointers, hrest⟩ := append_cut (P := (· = '*')) (fun _ => List.eq_of_mem_replicate)
    (fun _ => List.eq_of_mem_replicate) (hstar t) (hstar t') hchars
  obtain ⟨hbase, harray⟩ :=
    append_cut (P := (· ≠ '[')) (hbracket t) (hbracket t') (hopen t) (hopen t') hrest
  obtain ⟨hb, hid⟩ := baseText_inj (String.toList_inj.mp hbase)
  have hp : t.pointers = t'.pointers := by
    have hlength := congrArg List.length hpointers
    rw [List.length_replicate, List.length_replicate] at hlength
    exact UInt8.toNat_inj.mp hlength
  have hlen := arrayText_inj (String.toList_inj.mp harray)
  unfold shown
  rw [← hb, ← hp, ← hlen]
  by_cases hstruct : t.base = .struct
  · rw [if_pos hstruct, if_pos hstruct, hid hstruct]
  · rw [if_neg hstruct, if_neg hstruct]

end TypeDesc

/-! ### Tokens of a line -/

namespace DumpItem

def locToken (loc : SourceLoc) : String := "@" ++ loc.line.toNat.repr ++ ":" ++ loc.col.toNat.repr

def loopToken : Option Nat → String
  | some n => "loop=s" ++ n.repr
  | none => "loop=?"

def fieldToken (key : String) (t : Text) : String := key ++ "=" ++ t.display

def rowTokens (front : String) : UInt64 → List UInt64 → List String
  | n, [] => [front ++ n.toNat.repr ++ "]"]
  | n, m :: ms => (front ++ n.toNat.repr ++ ",") :: rowTokens "" m ms

def switchTokens : List UInt64 → List String
  | [] => []
  | n :: ns => rowTokens "switch=[" n ns

def slotToken (slot : Nat) : String := "[" ++ slot.repr ++ "]"

def valueToken (value : UInt64) : String := "=" ++ value.toNat.repr

def shownValue (kind : ExprKind) (value : UInt64) : Option UInt64 :=
  if kind.isNumeral ∨ value ≠ 0 then some value else none

def tokens : DumpItem → List String
  | localDecl name ty => ["local", name.display ++ ":", ty.render]
  | stmt number kind loc loop label switch =>
    renderNumber number :: kind.name :: (loc.toList.map locToken ++ (loop.toList.map loopToken
      ++ (label.toList.map (fieldToken "label") ++ switchTokens switch)))
  | expr slot kind value ty symbol method =>
    slot.toList.map slotToken ++ kind.name :: ((shownValue kind value).toList.map valueToken
      ++ (symbol.toList.map (fieldToken "sym") ++ (method.toList.map (fieldToken "method")
      ++ [":", ty.render])))

def shown : DumpItem → DumpItem
  | localDecl name ty => localDecl name ty.shown
  | stmt number kind loc loop label switch => stmt number kind loc loop label switch
  | expr slot kind value ty symbol method => expr slot kind value ty.shown symbol method

def texts : DumpItem → List Text
  | localDecl name _ => [name]
  | stmt _ _ _ _ label _ => label.toList
  | expr _ _ _ _ symbol method => symbol.toList ++ method.toList

end DumpItem

def spaced (ws : List String) : List Char := ws.flatMap fun w => ' ' :: w.toList

theorem spaced_cons (w : String) (ws : List String) : spaced (w :: ws) = ' ' :: (w.toList ++ spaced ws) := rfl

theorem spaced_append (ws vs : List String) : spaced (ws ++ vs) = spaced ws ++ spaced vs := List.flatMap_append

/-- Solid tokens can be told apart. -/
theorem spaced_inj {ws vs : List String} (hws : ∀ w ∈ ws, Solid w.toList) (hvs : ∀ v ∈ vs, Solid v.toList)
    (h : spaced ws = spaced vs) : ws = vs := by
  -- Behind a token there is a blank or nothing.
  have hhead (us : List String) : ∀ c ∈ (spaced us).head?, ¬c ≠ ' ' := by
    intro c hc
    cases us with
    | nil => cases hc
    | cons u us => exact not_not.mpr (Option.some.inj hc).symm
  induction ws generalizing vs with
  | nil =>
    cases vs with
    | nil => rfl
    | cons v vs => cases h
  | cons w ws ih =>
    cases vs with
    | nil => cases h
    | cons v vs =>
      obtain ⟨hw, hws⟩ := List.forall_mem_cons.mp hws
      obtain ⟨hv, hvs⟩ := List.forall_mem_cons.mp hvs
      rw [spaced_cons, spaced_cons] at h
      -- So the first tokens end at the same place.
      obtain ⟨hwv, hrest⟩ := append_cut (P := (· ≠ ' ')) (fun c hc => (Solid.ne hw hc).1)
        (fun c hc => (Solid.ne hv hc).1) (hhead ws) (hhead vs) (List.cons.inj h).2
      rw [String.toList_inj.mp hwv, ih hws hvs hrest]

namespace DumpItem

theorem spaced_rowTokens (front : String) (n : UInt64) (ns : List UInt64) :
    spaced (rowTokens front n ns)
      = ' ' :: (front ++ ", ".intercalate ((n :: ns).map fun n => n.toNat.repr) ++ "]").toList := by
  induction ns generalizing front n with
  | nil => simp [rowTokens, spaced]
  | cons m ms ih =>
    rw [rowTokens, spaced_cons, ih]
    simp only [List.map_cons, String.intercalate_cons_cons]
    simp

/-- The labels of a switch are rendered with a comma and a blank between them, so each is a token. -/
theorem spaced_switchTokens (switch : List UInt64) :
    spaced (switchTokens switch) = (renderSwitch switch).toList := by
  cases switch with
  | nil => rfl
  | cons n ns =>
    have hrender : renderSwitch (n :: ns)
        = " switch=[" ++ ", ".intercalate ((n :: ns).map fun n => n.toNat.repr) ++ "]" := rfl
    rw [switchTokens, spaced_rowTokens, hrender]
    simp

/-- A line is made of its tokens. -/
theorem spaced_tokens (item : DumpItem) : spaced item.tokens = ' ' :: item.render.toList := by
  cases item with
  | localDecl name ty =>
    simp [tokens, render, spaced]
  | stmt number kind loc loop label switch =>
    -- Each field is rendered as its own tokens with a blank in front.
    have hloc : spaced (loc.toList.map locToken) = (renderLoc loc).toList := by
      cases loc <;> simp [spaced, renderLoc, locToken]
    have hloop : spaced (loop.toList.map loopToken) = (renderLoop loop).toList := by
      rcases loop with _ | _ | n <;> simp [spaced, renderLoop, loopToken]
    have hlabel : spaced (label.toList.map (fieldToken "label")) = (renderField "label" label).toList := by
      cases label <;> simp [spaced, renderField, fieldToken]
    rw [tokens, spaced_cons, spaced_cons, spaced_append, spaced_append, spaced_append, hloc, hloop, hlabel,
      spaced_switchTokens, render]
    simp
  | expr slot kind value ty symbol method =>
    have hslot : spaced (slot.toList.map slotToken) ++ [' '] = ' ' :: (renderSlot slot).toList := by
      cases slot <;> simp [spaced, renderSlot, slotToken]
    have hvalue : spaced ((shownValue kind value).toList.map valueToken) = (renderValue kind value).toList := by
      unfold shownValue renderValue
      split <;> simp [spaced, valueToken]
    have hsymbol : spaced (symbol.toList.map (fieldToken "sym")) = (renderField "sym" symbol).toList := by
      cases symbol <;> simp [spaced, renderField, fieldToken]
    have hmethod : spaced (method.toList.map (fieldToken "method")) = (renderField "method" method).toList := by
      cases method <;> simp [spaced, renderField, fieldToken]
    rw [tokens, spaced_append, spaced_cons, spaced_append, spaced_append, spaced_append, hvalue, hsymbol,
      hmethod, render, ← List.singleton_append, ← List.append_assoc, hslot]
    simp [spaced]

/-! ### Solid tokens -/

theorem solid_renderNumber (number : Option Nat) : Solid (renderNumber number).toList := by
  cases number with
  | none => decide
  | some n =>
    rw [renderNumber, String.toList_append]
    exact Avoids.append (by decide) (solid_repr n)

theorem solid_kindName (kind : StmtKind) : Solid kind.name.toList := by
  cases kind <;> decide

theorem solid_exprName (kind : ExprKind) : Solid kind.name.toList := by
  cases kind <;> decide

/-- A row of labels has no blank inside a token. -/
theorem solid_rowTokens {front : String} (hfront : Solid front.toList) (n : UInt64) (ns : List UInt64) :
    ∀ w ∈ rowTokens front n ns, Solid w.toList := by
  induction ns generalizing front n with
  | nil =>
    rw [rowTokens, List.forall_mem_singleton, String.toList_append, String.toList_append]
    exact (hfront.append (solid_repr _)).append (by decide)
  | cons m ms ih =>
    rw [rowTokens, List.forall_mem_cons, String.toList_append, String.toList_append]
    exact ⟨(hfront.append (solid_repr _)).append (by decide), ih (by decide) m⟩

theorem solid_fieldToken (key : String) (hkey : Solid (key ++ "=").toList) {t : Text} (h : t.Plain) :
    Solid (fieldToken key t).toList := by
  rw [fieldToken, String.toList_append]
  exact hkey.append h.solid

/-- If the texts of a line are plain, its tokens are solid. -/
theorem solid_tokens {item : DumpItem} (h : ∀ t ∈ item.texts, t.Plain) : ∀ w ∈ item.tokens, Solid w.toList := by
  -- The marks between the fields have no blanks themselves.
  have hmark : ∀ key ∈ ["@", ":", "loop=s", "loop=?", "local", "[", "]", "=", "label=", "sym=", "method=",
      "switch=["], Solid key.toList := by decide
  cases item with
  | localDecl name ty =>
    simp only [tokens, List.forall_mem_cons, List.not_mem_nil, false_implies, implies_true, and_true,
      String.toList_append]
    exact ⟨hmark _ (by decide), (h name List.mem_cons_self).solid.append (hmark _ (by decide)), ty.solid_render⟩
  | stmt number kind loc loop label switch =>
    simp only [tokens, List.forall_mem_cons, List.forall_mem_append, List.forall_mem_map, Option.mem_toList]
    refine ⟨solid_renderNumber number, solid_kindName kind, fun l _ => ?_, fun n _ => ?_, fun t ht => ?_, ?_⟩
    · simp only [locToken, String.toList_append]
      exact (((hmark _ (by decide)).append (solid_repr _)).append (hmark _ (by decide))).append (solid_repr _)
    · cases n with
      | none => exact hmark _ (by decide)
      | some n =>
        simp only [loopToken, String.toList_append]
        exact (hmark _ (by decide)).append (solid_repr _)
    · exact solid_fieldToken "label" (by decide) (h t (Option.mem_toList.mpr ht))
    · cases switch with
      | nil => exact fun _ hw => nomatch hw
      | cons n ns => exact solid_rowTokens (hmark _ (by decide)) n ns
  | expr slot kind value ty symbol method =>
    simp only [texts, List.forall_mem_append, Option.mem_toList] at h
    simp only [tokens, List.forall_mem_cons, List.forall_mem_append, List.forall_mem_map, Option.mem_toList,
      List.not_mem_nil, false_implies, implies_true, and_true]
    refine ⟨fun n _ => ?_, solid_exprName kind, fun v _ => ?_, fun t ht => ?_, fun t ht => ?_,
      hmark _ (by decide), ty.solid_render⟩
    · simp only [slotToken, String.toList_append]
      exact ((hmark _ (by decide)).append (solid_repr _)).append (hmark _ (by decide))
    · simp only [valueToken, String.toList_append]
      exact (hmark _ (by decide)).append (solid_repr _)
    · exact solid_fieldToken "sym" (by decide) (h.1 t ht)
    · exact solid_fieldToken "method" (by decide) (h.2 t ht)

end DumpItem

end TreePack
