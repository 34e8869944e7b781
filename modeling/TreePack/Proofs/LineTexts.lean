import TreePack.Proofs.LineTokens

namespace TreePack

namespace DumpItem

/-! ### What a token says -/

/-- Digits end in front of the first character that is none. -/
theorem repr_cut {n m : Nat} {R S : List Char} (hR : ∀ c ∈ R.head?, ¬c.isDigit = true)
    (hS : ∀ c ∈ S.head?, ¬c.isDigit = true) (h : n.repr.toList ++ R = m.repr.toList ++ S) : n = m ∧ R = S := by
  obtain ⟨hnm, hRS⟩ := append_cut (P := fun c => c.isDigit = true) (fun _ => isDigit_of_mem_repr)
    (fun _ => isDigit_of_mem_repr) hR hS h
  exact ⟨Nat.repr_inj.mp (String.toList_inj.mp hnm), hRS⟩

/-- A location is read back from its token: the colon ends the line number. -/
theorem locToken_inj {loc loc' : SourceLoc} (h : locToken loc = locToken loc') : loc = loc' := by
  have hchars := String.toList_inj.mpr h
  simp only [locToken, String.toList_append, List.append_assoc, List.append_cancel_left_eq] at hchars
  have hcolon (rest : List Char) : ∀ c ∈ (":".toList ++ rest).head?, ¬c.isDigit = true := by
    intro c hc
    rw [← Option.some.inj hc]
    decide
  obtain ⟨hline, hcol⟩ := repr_cut (hcolon _) (hcolon _) hchars
  have hcol' := Nat.repr_inj.mp (String.toList_inj.mp (List.append_cancel_left hcol))
  cases loc
  cases loc'
  cases UInt32.toNat_inj.mp hline
  cases UInt32.toNat_inj.mp hcol'
  rfl

/-- What is written of an option says which it is. -/
theorem option_inj {α : Type} {absent : String} {f : α → String} (hf : ∀ a b, f a = f b → a = b)
    (habsent : ∀ a, absent ≠ f a) {o o' : Option α} (h : o.elim absent f = o'.elim absent f) : o = o' := by
  cases o with
  | none =>
    cases o' with
    | none => rfl
    | some b => exact absurd h (habsent b)
  | some a =>
    cases o' with
    | none => exact absurd h.symm (habsent a)
    | some b => rw [hf a b h]

/-- A number is read back from its token, also when it is missing. -/
theorem renderNumber_inj {n m : Option Nat} (h : renderNumber n = renderNumber m) : n = m := by
  have hquestion (k : Nat) : "s?" ≠ "s" ++ k.repr := by
    intro heq
    have hmem : '?' ∈ k.repr.toList := by
      have hchars : ['s', '?'] = 's' :: k.repr.toList := by
        have hchars := String.toList_inj.mpr heq
        rwa [String.toList_append] at hchars
      rw [← (List.cons.inj hchars).2]
      exact List.mem_cons_self
    exact absurd (isDigit_of_mem_repr hmem) (by decide)
  have helim (n : Option Nat) : renderNumber n = n.elim "s?" ("s" ++ ·.repr) := by cases n <;> rfl
  rw [helim, helim] at h
  exact option_inj (fun _ _ h => Nat.repr_inj.mp ((String.append_right_inj _).mp h)) hquestion h

theorem loopToken_inj {n m : Option Nat} (h : loopToken n = loopToken m) : n = m := by
  have hquestion (k : Nat) : "loop=?" ≠ "loop=s" ++ k.repr := by
    intro heq
    have hchars := congrArg (fun s => s.toList.drop 5) heq
    simp only [String.toList_append] at hchars
    cases hchars
  have helim (n : Option Nat) : loopToken n = n.elim "loop=?" ("loop=s" ++ ·.repr) := by cases n <;> rfl
  rw [helim, helim] at h
  exact option_inj (fun _ _ h => Nat.repr_inj.mp ((String.append_right_inj _).mp h)) hquestion h

/-- A plain text is read back from its token. -/
theorem fieldToken_inj {key : String} {t t' : Text} (ht : t.Plain) (ht' : t'.Plain)
    (h : fieldToken key t = fieldToken key t') : t = t' :=
  ht.eq_of_display ht' ((String.append_right_inj _).mp h)

theorem field_inj {key : String} {t t' : Option Text} (ht : ∀ u ∈ t, u.Plain) (ht' : ∀ u ∈ t', u.Plain)
    (h : t.map (fieldToken key) = t'.map (fieldToken key)) : t = t' := by
  cases t with
  | none =>
    cases t' with
    | none => rfl
    | some t' => cases h
  | some t =>
    cases t' with
    | none => cases h
    | some t' => rw [fieldToken_inj (ht t rfl) (ht' t' rfl) (Option.some.inj h)]

/-- A number between two parts that do not begin with a digit behind it. -/
theorem between_inj {front e e' : String} {n m : UInt64} (he : ∀ c ∈ e.toList.head?, ¬c.isDigit = true)
    (he' : ∀ c ∈ e'.toList.head?, ¬c.isDigit = true)
    (h : front ++ n.toNat.repr ++ e = front ++ m.toNat.repr ++ e') : n = m ∧ e = e' := by
  have hchars := String.toList_inj.mpr h
  simp only [String.toList_append, List.append_assoc, List.append_cancel_left_eq] at hchars
  obtain ⟨hnm, hee⟩ := repr_cut he he' hchars
  exact ⟨UInt64.toNat_inj.mp hnm, String.toList_inj.mp hee⟩

/-- A row of labels is read back from its tokens: the comma ends a label and the bracket ends the
row. -/
theorem rowTokens_inj {front : String} {n m : UInt64} {ns ms : List UInt64}
    (h : rowTokens front n ns = rowTokens front m ms) : n = m ∧ ns = ms := by
  have hclose : ∀ c ∈ "]".toList.head?, ¬c.isDigit = true := by simp
  have hcomma : ∀ c ∈ ",".toList.head?, ¬c.isDigit = true := by simp
  induction ns generalizing front n m ms with
  | nil =>
    cases ms with
    | nil => exact ⟨(between_inj hclose hclose (List.cons.inj h).1).1, rfl⟩
    | cons m' ms => exact absurd (between_inj hclose hcomma (List.cons.inj h).1).2 (by decide)
  | cons n' ns ih =>
    cases ms with
    | nil => exact absurd (between_inj hcomma hclose (List.cons.inj h).1).2 (by decide)
    | cons m' ms =>
      obtain ⟨hfirst, hrest⟩ := List.cons.inj h
      obtain ⟨rfl, rfl⟩ := ih hrest
      exact ⟨(between_inj hcomma hcomma hfirst).1, rfl⟩

theorem switchTokens_inj {switch switch' : List UInt64} (h : switchTokens switch = switchTokens switch') :
    switch = switch' := by
  cases switch with
  | nil =>
    cases switch' with
    | nil => rfl
    | cons m ms => cases ms <;> cases h
  | cons n ns =>
    cases switch' with
    | nil => cases ns <;> cases h
    | cons m ms =>
      obtain ⟨rfl, rfl⟩ := rowTokens_inj h
      rfl

/-- A value that is not shown is zero. -/
theorem value_of_shownValue {kind : ExprKind} {value value' : UInt64}
    (h : shownValue kind value = shownValue kind value') : value = value' := by
  unfold shownValue at h
  by_cases hnumeral : kind.isNumeral <;> by_cases hz : value = 0 <;> by_cases hz' : value' = 0 <;> simp_all

/-! ### The order of the fields -/

def tokenOrder (w : String) : Nat :=
  match w.toList with
  | '[' :: _ => 0
  | '@' :: _ | '=' :: _ => 1
  | 'l' :: 'o' :: _ | 's' :: 'y' :: _ => 2
  | 'l' :: 'a' :: _ | 'm' :: 'e' :: 't' :: 'h' :: 'o' :: 'd' :: '=' :: _ => 3
  | 's' :: 'w' :: _ => 4
  | _ => 5

/-- An optional token of a field can be told from tokens of later fields. -/
theorem option_cut {α : Type} {f : α → String} {k : Nat} (hf : ∀ a, tokenOrder (f a) = k) {o o' : Option α}
    {R S : List String} (hR : ∀ w ∈ R.head?, k < tokenOrder w) (hS : ∀ w ∈ S.head?, k < tokenOrder w)
    (h : o.toList.map f ++ R = o'.toList.map f ++ S) : o.map f = o'.map f ∧ R = S := by
  have hall (o : Option α) : ∀ w ∈ o.toList.map f, tokenOrder w = k := List.forall_mem_map.mpr fun a _ => hf a
  obtain ⟨hmap, hRS⟩ := append_cut (P := fun w => tokenOrder w = k) (hall o) (hall o')
    (fun w hw => Nat.ne_of_gt (hR w hw)) (fun w hw => Nat.ne_of_gt (hS w hw)) h
  refine ⟨?_, hRS⟩
  cases o <;> cases o' <;> simp_all

/-- Tokens of later fields, if any, come next. -/
theorem lt_tokenOrder_head {α : Type} {f : α → String} {j k : Nat} (hf : ∀ a, tokenOrder (f a) = k)
    (hjk : j < k) {o : Option α} {R : List String} (hR : ∀ w ∈ R.head?, k < tokenOrder w) :
    ∀ w ∈ (o.toList.map f ++ R).head?, j < tokenOrder w := by
  intro w hw
  cases o with
  | none => exact Nat.lt_trans hjk (hR w hw)
  | some a =>
    rw [← Option.some.inj hw, hf a]
    exact hjk

/-- What is behind the first characters of a token does not matter if they belong to a field. -/
theorem tokenOrder_append {front : String} (h : tokenOrder front < 5) (rest : String) :
    tokenOrder (front ++ rest) = tokenOrder front := by
  unfold tokenOrder at h ⊢
  rw [String.toList_append]
  split at h
  case h_9 => exact absurd h (Nat.lt_irrefl 5)
  all_goals
    rename_i heq
    rw [heq]
    rfl

theorem order_locToken (loc : SourceLoc) : tokenOrder (locToken loc) = 1 := by
  rw [locToken, String.append_assoc, String.append_assoc]
  exact tokenOrder_append (by decide) _

theorem order_valueToken (value : UInt64) : tokenOrder (valueToken value) = 1 := tokenOrder_append (by decide) _

theorem order_loopToken (n : Option Nat) : tokenOrder (loopToken n) = 2 := by
  cases n with
  | none => rfl
  | some n => exact tokenOrder_append (by decide) _

theorem order_fieldToken {key : String} (h : tokenOrder (key ++ "=") < 5) (t : Text) :
    tokenOrder (fieldToken key t) = tokenOrder (key ++ "=") := tokenOrder_append h _

theorem order_slotToken (slot : Nat) : tokenOrder (slotToken slot) = 0 := by
  rw [slotToken, String.append_assoc]
  exact tokenOrder_append (by decide) _

theorem order_switchTokens (switch : List UInt64) : ∀ w ∈ (switchTokens switch).head?, 3 < tokenOrder w := by
  intro w hw
  cases switch with
  | nil => cases hw
  | cons n ns =>
    have hfirst (rest : String) : 3 < tokenOrder ("switch=[" ++ n.toNat.repr ++ rest) := by
      rw [String.append_assoc, tokenOrder_append (by decide)]
      decide
    cases ns <;> (rw [← Option.some.inj hw]; exact hfirst _)

theorem order_kindName (kind : ExprKind) : 0 < tokenOrder kind.name := by cases kind <;> decide

/-! ### What a line says -/

/-- A statement is read back from its tokens, as far as it is shown. The fields are cut off from
the left, each by the order of the token behind it. -/
theorem shown_of_stmtTokens {number number' : Option Nat} {kind kind' : StmtKind} {loc loc' : Option SourceLoc}
    {loop loop' : Option (Option Nat)} {label label' : Option Text} {switch switch' : List UInt64}
    (hp : ∀ t ∈ label, t.Plain) (hp' : ∀ t ∈ label', t.Plain)
    (h : (stmt number kind loc loop label switch).tokens
      = (stmt number' kind' loc' loop' label' switch').tokens) :
    stmt number kind loc loop label switch = stmt number' kind' loc' loop' label' switch' := by
  obtain ⟨hnumber, hrest⟩ := List.cons.inj h
  obtain ⟨hkind, hrest⟩ := List.cons.inj hrest
  have hkinds : ∀ k k' : StmtKind, k.name = k'.name → k = k' := by
    intro k k'
    cases k <;> cases k' <;> decide
  have hlabels (label : Option Text) (switch : List UInt64) :
      ∀ w ∈ (label.toList.map (fieldToken "label") ++ switchTokens switch).head?, 2 < tokenOrder w :=
    lt_tokenOrder_head (order_fieldToken (by decide)) (by decide) (order_switchTokens switch)
  have hloops (loop : Option (Option Nat)) (label : Option Text) (switch : List UInt64) :
      ∀ w ∈ (loop.toList.map loopToken ++ (label.toList.map (fieldToken "label") ++ switchTokens switch)).head?,
        1 < tokenOrder w :=
    lt_tokenOrder_head order_loopToken (by decide) (hlabels label switch)
  -- The optional fields are cut off from the front, each told from what may come behind it.
  obtain ⟨hloc, hrest⟩ := option_cut order_locToken (hloops _ _ _) (hloops _ _ _) hrest
  obtain ⟨hloop, hrest⟩ := option_cut order_loopToken (hlabels _ _) (hlabels _ _) hrest
  obtain ⟨hlabel, hswitch⟩ :=
    option_cut (order_fieldToken (by decide)) (order_switchTokens switch) (order_switchTokens switch') hrest
  rw [renderNumber_inj hnumber, hkinds _ _ hkind, Option.map_injective (fun _ _ => locToken_inj) hloc,
    Option.map_injective (fun _ _ => loopToken_inj) hloop, field_inj hp hp' hlabel, switchTokens_inj hswitch]

/-- An expression is read back from its tokens, as far as it is shown. -/
theorem shown_of_exprTokens {slot slot' : Option Nat} {kind kind' : ExprKind} {value value' : UInt64}
    {ty ty' : TypeDesc} {symbol symbol' method method' : Option Text}
    (hp : ∀ t ∈ (expr slot kind value ty symbol method).texts, t.Plain)
    (hp' : ∀ t ∈ (expr slot' kind' value' ty' symbol' method').texts, t.Plain)
    (h : (expr slot kind value ty symbol method).tokens
      = (expr slot' kind' value' ty' symbol' method').tokens) :
    (expr slot kind value ty symbol method).shown = (expr slot' kind' value' ty' symbol' method').shown := by
  simp only [texts, List.forall_mem_append, Option.mem_toList] at hp hp'
  have hkinds : ∀ k ∈ ExprKind.all, ∀ k' ∈ ExprKind.all, k.name = k'.name → k = k' := by decide
  have hall (k : ExprKind) : k ∈ ExprKind.all := by cases k <;> decide
  have hends (ty : TypeDesc) : ∀ w ∈ [":", ty.render].head?, 3 < tokenOrder w := by
    intro w hw
    rw [← Option.some.inj hw]
    decide
  have hmethods (method : Option Text) (ty : TypeDesc) :
      ∀ w ∈ (method.toList.map (fieldToken "method") ++ [":", ty.render]).head?, 2 < tokenOrder w :=
    lt_tokenOrder_head (order_fieldToken (by decide)) (by decide) (hends ty)
  have hsymbols (symbol method : Option Text) (ty : TypeDesc) :
      ∀ w ∈ (symbol.toList.map (fieldToken "sym")
        ++ (method.toList.map (fieldToken "method") ++ [":", ty.render])).head?, 1 < tokenOrder w :=
    lt_tokenOrder_head (order_fieldToken (by decide)) (by decide) (hmethods method ty)
  -- Only a slot begins with a bracket; then the kind, and the optional fields as in a statement.
  obtain ⟨hslot, hrest⟩ := option_cut order_slotToken (fun w hw => by
    rw [← Option.some.inj hw]
    exact order_kindName kind) (fun w hw => by
    rw [← Option.some.inj hw]
    exact order_kindName kind') h
  obtain ⟨hkind, hrest⟩ := List.cons.inj hrest
  obtain ⟨hvalue, hrest⟩ := option_cut order_valueToken (hsymbols _ _ _) (hsymbols _ _ _) hrest
  obtain ⟨hsymbol, hrest⟩ := option_cut (order_fieldToken (by decide)) (hmethods _ _) (hmethods _ _) hrest
  obtain ⟨hmethod, hty⟩ := option_cut (order_fieldToken (by decide)) (hends ty) (hends ty') hrest
  have hslotToken {n m : Nat} (h : slotToken n = slotToken m) : n = m :=
    Nat.repr_inj.mp ((String.append_right_inj _).mp ((String.append_left_inj _).mp h))
  have hvalueToken {v v' : UInt64} (h : valueToken v = valueToken v') : v = v' :=
    UInt64.toNat_inj.mp (Nat.repr_inj.mp ((String.append_right_inj _).mp h))
  cases hkinds _ (hall kind) _ (hall kind') hkind
  rw [shown, shown, Option.map_injective (fun _ _ => hslotToken) hslot,
    value_of_shownValue (Option.map_injective (fun _ _ => hvalueToken) hvalue), field_inj hp.1 hp'.1 hsymbol,
    field_inj hp.2 hp'.2 hmethod, TypeDesc.shown_of_render (List.cons.inj (List.cons.inj hty).2).1]

def sort : DumpItem → Nat
  | localDecl _ _ => 0
  | stmt _ _ _ _ _ _ => 1
  | expr _ _ _ _ _ _ => 2

def sortOf (w : String) : Nat :=
  match w.toList with
  | 'l' :: 'o' :: _ => 0
  | 's' :: c :: _ => if c = '?' ∨ c.isDigit then 1 else 2
  | _ => 2

/-- The number in front of a statement, known or not, tells that the line is a statement's. -/
theorem sortOf_renderNumber (number : Option Nat) : sortOf (renderNumber number) = 1 := by
  cases number with
  | none => rfl
  | some n =>
    have hchars : (renderNumber (some n)).toList = 's' :: n.repr.toList := by
      rw [renderNumber, String.toList_append]
      rfl
    rw [sortOf, hchars]
    cases hrepr : n.repr.toList with
    | nil =>
      rw [Nat.toList_repr] at hrepr
      exact absurd hrepr Nat.toDigits_ne_nil
    | cons c cs =>
      have hdigit : c.isDigit = true := isDigit_of_mem_repr (hrepr ▸ List.mem_cons_self)
      exact if_pos (.inr hdigit)

/-- The first token tells which sort of line it is. -/
theorem exists_first (item : DumpItem) :
    ∃ w ws, item.tokens = w :: ws ∧ w.toList ≠ [] ∧ sortOf w = item.sort := by
  cases item with
  | localDecl name ty => exact ⟨_, _, rfl, by decide, rfl⟩
  | stmt number kind loc loop label switch =>
    refine ⟨_, _, rfl, fun hnil => ?_, sortOf_renderNumber number⟩
    have hsort := sortOf_renderNumber number
    rw [sortOf, hnil] at hsort
    cases hsort
  | expr slot kind value ty symbol method =>
    -- An expression line starts with its slot, or with its kind if it has none.
    cases slot with
    | none =>
      have hnames : kind.name.toList ≠ [] ∧ sortOf kind.name = 2 := by cases kind <;> decide
      exact ⟨_, _, rfl, hnames⟩
    | some slot =>
      have hchars : (slotToken slot).toList = '[' :: (slot.repr ++ "]").toList := by
        rw [slotToken, String.toList_append, String.toList_append, String.toList_append]
        rfl
      refine ⟨_, _, rfl, ?_, ?_⟩
      · rw [hchars]
        exact List.cons_ne_nil _ _
      · rw [sortOf, hchars]
        rfl

/-- Lines whose tokens are the same show the same. -/
theorem shown_of_tokens {item item' : DumpItem} (hp : ∀ t ∈ item.texts, t.Plain)
    (hp' : ∀ t ∈ item'.texts, t.Plain) (h : item.tokens = item'.tokens) : item.shown = item'.shown := by
  -- The sort of a line is told by its first token.
  have hsort : item.sort = item'.sort := by
    obtain ⟨w, ws, hw, -, hsort⟩ := item.exists_first
    obtain ⟨w', ws', hw', -, hsort'⟩ := item'.exists_first
    rw [hw, hw'] at h
    rw [← hsort, ← hsort', (List.cons.inj h).1]
  cases item with
  | localDecl name ty =>
    cases item' with
    | localDecl name' ty' =>
      obtain ⟨hname, hty⟩ := List.cons.inj (List.cons.inj h).2
      have hdisplay := (String.append_left_inj _).mp hname
      rw [shown, shown, (hp name List.mem_cons_self).eq_of_display (hp' name' List.mem_cons_self) hdisplay,
        TypeDesc.shown_of_render (List.cons.inj hty).1]
    | stmt _ _ _ _ _ _ | expr _ _ _ _ _ _ => cases hsort
  | stmt number kind loc loop label switch =>
    cases item' with
    | stmt number' kind' loc' loop' label' switch' =>
      have hlabel : ∀ t ∈ label, t.Plain := fun t ht => hp t (Option.mem_toList.mpr ht)
      have hlabel' : ∀ t ∈ label', t.Plain := fun t ht => hp' t (Option.mem_toList.mpr ht)
      exact shown_of_stmtTokens hlabel hlabel' h
    | localDecl _ _ | expr _ _ _ _ _ _ => cases hsort
  | expr slot kind value ty symbol method =>
    cases item' with
    | expr slot' kind' value' ty' symbol' method' => exact shown_of_exprTokens hp hp' h
    | localDecl _ _ | stmt _ _ _ _ _ _ => cases hsort

/-- What is not shown does not change the text. -/
theorem render_shown (item : DumpItem) : item.shown.render = item.render := by
  cases item with
  | localDecl name ty => simp only [shown, render, TypeDesc.render_shown]
  | stmt number kind loc loop label switch => rfl
  | expr slot kind value ty symbol method => simp only [shown, render, TypeDesc.render_shown]

/-- A line that is not empty begins with a character that is no blank, and has no line end in it. -/
theorem render_chars {item : DumpItem} (hp : ∀ t ∈ item.texts, t.Plain) :
    (∀ c ∈ item.render.toList.head?, ¬c = ' ') ∧ ∀ c ∈ item.render.toList, c ≠ '\n' := by
  have hsolid := solid_tokens hp
  have hspaced := item.spaced_tokens
  obtain ⟨w, ws, hw, hne, -⟩ := item.exists_first
  rw [hw] at hsolid hspaced
  -- Tokens are joined by blanks, so a line starts with its first token and ends with its last.
  have hchars : item.render.toList = w.toList ++ spaced ws := (List.cons.inj hspaced).2.symm
  obtain ⟨hfirst, hrest⟩ := List.forall_mem_cons.mp hsolid
  rw [hchars]
  constructor
  · intro c hc
    rw [List.head?_append_of_ne_nil _ hne] at hc
    exact (Solid.ne hfirst (List.mem_of_mem_head? hc)).1
  · intro c hc
    obtain hc | hc := List.mem_append.mp hc
    · exact (Solid.ne hfirst hc).2
    · obtain ⟨v, hv, hc⟩ := List.mem_flatMap.mp hc
      obtain rfl | hc := List.mem_cons.mp hc
      · decide
      · exact (Solid.ne (hrest v hv) hc).2

end DumpItem

/-! ### Lines and dumps -/

def DumpLine.shown (line : DumpLine) : DumpLine := ⟨line.depth, line.item.shown⟩

def DumpLine.Plain (line : DumpLine) : Prop := ∀ t ∈ line.item.texts, t.Plain

/-- A line is its indentation, two blanks a level, then its text and a line break. -/
theorem DumpLine.toList_render (line : DumpLine) :
    line.render.toList = List.replicate (2 * line.depth) ' ' ++ line.item.render.toList ++ ['\n'] := by
  have hblanks (n : Nat) : ("".pushn ' ' n).toList = List.replicate n ' ' := by
    rw [String.pushn_eq_repeat_push]
    induction n with
    | zero => rfl
    | succ n ih => rw [Nat.repeat, String.toList_push, ih, List.replicate_succ']
  rw [render, String.toList_append, String.toList_append, hblanks]
  rfl

/-- The first of some plain lines is known from the text of all of them. -/
theorem DumpLine.shown_of_render {line line' : DumpLine} (hp : line.Plain) (hp' : line'.Plain)
    {R S : List Char} (h : line.render.toList ++ R = line'.render.toList ++ S) :
    line.shown = line'.shown ∧ R = S := by
  have hend {line : DumpLine} (hp : line.Plain) :
      ∀ c ∈ List.replicate (2 * line.depth) ' ' ++ line.item.render.toList, c ≠ '\n' := by
    intro c hc
    obtain hc | hc := List.mem_append.mp hc
    · rw [List.eq_of_mem_replicate hc]
      decide
    · exact (DumpItem.render_chars hp).2 c hc
  have hstop (R : List Char) : ∀ c ∈ (['\n'] ++ R).head?, ¬c ≠ '\n' := by
    intro c hc
    exact not_not.mpr (Option.some.inj hc).symm
  rw [toList_render, toList_render, List.append_assoc _ ['\n'], List.append_assoc _ ['\n']] at h
  -- The line stops at the first line end, and its indentation at the first character that is no blank.
  obtain ⟨hline, hrest⟩ := append_cut (hend hp) (hend hp') (hstop R) (hstop S) h
  obtain ⟨hblanks, hitem⟩ := append_cut (P := (· = ' ')) (fun _ => List.eq_of_mem_replicate)
    (fun _ => List.eq_of_mem_replicate) (DumpItem.render_chars hp).1 (DumpItem.render_chars hp').1 hline
  have hdepth : line.depth = line'.depth := by
    have hlength := congrArg List.length hblanks
    rw [List.length_replicate, List.length_replicate] at hlength
    omega
  have htokens : line.item.tokens = line'.item.tokens := by
    apply spaced_inj (DumpItem.solid_tokens hp) (DumpItem.solid_tokens hp')
    rw [DumpItem.spaced_tokens, DumpItem.spaced_tokens, hitem]
  exact ⟨by rw [shown, shown, hdepth, DumpItem.shown_of_tokens hp hp' htokens], List.append_cancel_left hrest⟩

/-- Plain lines are written alike just if they show the same. -/
theorem join_render_iff {lines lines' : List DumpLine} (hp : ∀ l ∈ lines, l.Plain)
    (hp' : ∀ l ∈ lines', l.Plain) :
    String.join (lines.map DumpLine.render) = String.join (lines'.map DumpLine.render)
      ↔ lines.map DumpLine.shown = lines'.map DumpLine.shown := by
  constructor
  · intro h
    -- A line is never empty, so dumps of different numbers of lines differ.
    have hend (line : DumpLine) (R : List Char) : line.render.toList ++ R ≠ [] := by
      rw [DumpLine.toList_render]
      simp
    induction lines generalizing lines' with
    | nil =>
      cases lines' with
      | nil => rfl
      | cons line' lines' =>
        have hchars := String.toList_inj.mpr h
        rw [List.map_cons, String.join_cons, String.toList_append] at hchars
        exact absurd hchars.symm (hend line' _)
    | cons line lines ih =>
      cases lines' with
      | nil =>
        have hchars := String.toList_inj.mpr h
        rw [List.map_cons, String.join_cons, String.toList_append] at hchars
        exact absurd hchars (hend line _)
      | cons line' lines' =>
        obtain ⟨hline, hlines⟩ := List.forall_mem_cons.mp hp
        obtain ⟨hline', hlines'⟩ := List.forall_mem_cons.mp hp'
        have hchars := String.toList_inj.mpr h
        simp only [List.map_cons, String.join_cons, String.toList_append] at hchars
        -- The first line break ends the first line on both sides.
        obtain ⟨hshown, hrest⟩ := DumpLine.shown_of_render hline hline' hchars
        rw [List.map_cons, List.map_cons, hshown, ih hlines hlines' (String.toList_inj.mp hrest)]
  · intro h
    have hrender (lines : List DumpLine) :
        lines.map DumpLine.render = (lines.map DumpLine.shown).map DumpLine.render := by
      rw [List.map_map]
      apply List.map_congr_left
      intro line _
      simp only [Function.comp, DumpLine.render, DumpLine.shown, DumpItem.render_shown]
    rw [hrender lines, h, ← hrender]

end TreePack
