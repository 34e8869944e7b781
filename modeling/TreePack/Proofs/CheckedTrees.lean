import TreePack.Proofs.Checking

namespace TreePack

structure FoundStmt (b : Block) (depth : Nat) (s : Stmt Offset) : Prop where
  record : Stored.readAt b s.id = .ok (s.recordAt id)
  height : s.height ≤ depth
  held : Held b id s.pieces
  noFunctions : ∀ l ∈ s.allLocals, l.isFunction = false
  fewExprs : ∀ t ∈ s.allStmts, t.exprs.length ≤ maxExprs

structure FoundScope (b : Block) (depth : Nat) (s : Scope Offset) : Prop where
  height : s.height ≤ depth
  held : Held b id s.pieces
  noFunctions : ∀ l ∈ s.allLocals, l.isFunction = false
  fewExprs : ∀ t ∈ s.allStmts, t.exprs.length ≤ maxExprs

variable {b : Block} {depth : Nat}

/-- A statement is found where its record is, its expressions, its nested scope and the texts and
rows its head refers to. -/
theorem foundStmt_iff (head : StmtHead Offset) (scope : Option (Scope Offset))
    (exprs : List (Expr Offset)) :
    FoundStmt b depth ⟨head, scope, exprs⟩
      ↔ Stored.readAt b head.id = .ok ((Stmt.mk head scope exprs).recordAt id)
        ∧ exprs.length ≤ maxExprs ∧ (∀ e ∈ exprs, FoundExpr b depth e)
        ∧ (∀ t ∈ scope, FoundScope b depth t) ∧ (∀ t ∈ head.label, (textPiece t).HeldIn b id)
        ∧ InRow id (Stored.size UInt64) (head.switch.map (·.id))
        ∧ ∀ n ∈ head.switch, Stored.readAt b n.id = .ok n.val := by
  constructor
  · -- Everything said of a statement is said of the statement itself or of a node right below it.
    rintro ⟨hrecord, hheight, hheld, hlocals, hfew⟩
    obtain ⟨hnested, hexprs, hlabel, hrow, hswitch⟩ := (Stmt.held_iff _ _ _).mp hheld
    obtain ⟨hnestedHeight, hexprHeight⟩ := Nat.max_le.mp hheight
    rw [Stmt.allStmts_mk] at hfew
    obtain ⟨hself, hbelow⟩ := List.forall_mem_cons.mp hfew
    refine ⟨hrecord, hself, fun e he => ⟨exprListHeight_le_iff.mp hexprHeight e he, hexprs e he⟩,
      fun t ht => ⟨?_, ?_, ?_, ?_⟩, hlabel, hrow, hswitch⟩
    · exact nestedHeight_le_iff.mp hnestedHeight t ht
    · exact held_nestedPieces.mp hnested t ht
    · exact forall_nestedAllLocals.mp hlocals t ht
    · exact forall_nestedAllStmts.mp hbelow t ht
  · rintro ⟨hrecord, hself, hexprs, hscope, hlabel, hrow, hswitch⟩
    have hnested := held_nestedPieces.mpr fun t ht => (hscope t ht).held
    have hexprsHeld : ∀ e ∈ exprs, Held b id e.pieces := fun e he => (hexprs e he).2
    refine ⟨hrecord, Nat.max_le.mpr ⟨?_, ?_⟩,
      (Stmt.held_iff _ _ _).mpr ⟨hnested, hexprsHeld, hlabel, hrow, hswitch⟩, ?_, ?_⟩
    · exact nestedHeight_le_iff.mpr fun t ht => (hscope t ht).height
    · exact exprListHeight_le_iff.mpr fun e he => (hexprs e he).1
    · exact forall_nestedAllLocals.mpr fun t ht => (hscope t ht).noFunctions
    · rw [Stmt.allStmts_mk]
      exact List.forall_mem_cons.mpr ⟨hself, forall_nestedAllStmts.mpr fun t ht => (hscope t ht).fewExprs⟩

/-- A scope is found where its record is, aligned, with the rows of its declarations and
statements. -/
theorem foundScope_iff (o : Offset) (locals : List (Local Offset)) (stmts : List (Stmt Offset)) :
    FoundScope b (depth + 1) ⟨o, locals, stmts⟩
      ↔ o.toNat % alignment = 0
        ∧ Stored.readAt b o = .ok ((Scope.mk o locals stmts).recordAt id)
        ∧ InRow id (Stored.size (DeclRecord Offset)) (locals.map (·.id))
        ∧ (∀ l ∈ locals, FoundLocal b l)
        ∧ InRow id (Stored.size (StmtRecord Offset)) (stmts.map (·.id))
        ∧ ∀ s ∈ stmts, FoundStmt b depth s := by
  constructor
  · rintro ⟨hheight, hheld, hlocals, hfew⟩
    obtain ⟨⟨haligned, hread⟩, ⟨hlocalRow, hlocalsHeld⟩, ⟨hstmtRow, hrecords⟩, hbelow⟩ :=
      (Scope.held_iff _ _ _).mp hheld
    have hheight' := stmtListHeight_le_iff.mp (Nat.le_of_succ_le_succ hheight)
    obtain ⟨hplain, hlocals⟩ := List.forall_mem_append.mp hlocals
    -- The records of the statements stand in the array of the scope, not below the statements.
    refine ⟨haligned, hread, hlocalRow, fun l hl => ⟨hplain l hl, hlocalsHeld l hl⟩, hstmtRow,
      fun s hs => ⟨hrecords s hs, hheight' s hs, held_stmtListPieces stmts |>.mp hbelow s hs, ?_, ?_⟩⟩
    · exact forall_stmtListAllLocals.mp hlocals s hs
    · exact forall_stmtListAllStmts.mp hfew s hs
  · rintro ⟨haligned, hread, hlocalRow, hlocals, hstmtRow, hstmts⟩
    have hbelow := (held_stmtListPieces stmts).mpr fun s hs => (hstmts s hs).held
    refine ⟨?_, (Scope.held_iff _ _ _).mpr ⟨⟨haligned, hread⟩, ⟨hlocalRow, fun l hl => (hlocals l hl).2⟩,
      ⟨hstmtRow, fun s hs => (hstmts s hs).record⟩, hbelow⟩, ?_, ?_⟩
    · exact Nat.succ_le_succ (stmtListHeight_le_iff.mpr fun s hs => (hstmts s hs).height)
    · refine List.forall_mem_append.mpr ⟨fun l hl => (hlocals l hl).1, ?_⟩
      exact forall_stmtListAllLocals.mpr fun s hs => (hstmts s hs).noFunctions
    · exact forall_stmtListAllStmts.mpr fun s hs => (hstmts s hs).fewExprs

/-! ### Arrays whose elements are read -/

/-- Elements that follow each other in the block are an array. -/
theorem InRow.isRow {α : Type} {key : α → Offset} {stride : Nat} {xs : List α}
    (hrow : InRow id stride (xs.map key)) (hstride : 0 < stride)
    (hinside : ∀ x ∈ xs, (key x).toNat + stride ≤ b.size) :
    IsRow b ((arrayBase (xs.map key)).map id) xs.length.toUInt64 stride (xs.map key) := by
  have hlength : (xs.map key).length < range64 := by
    apply hrow.length_lt hstride
    intro o ho
    obtain ⟨x, hx, rfl⟩ := List.mem_map.mp ho
    have hle := hinside x hx
    change (key x).toNat < b.size
    omega
  refine ⟨Option.map_id_apply.symm, ?_, hlength, hrow, fun first hfirst => ?_⟩
  · rw [List.length_map]
  · -- The last element ends inside the block, and all others lie before it.
    cases xs with
    | nil => cases hfirst
    | cons x xs =>
      obtain rfl : key x = first := Option.some_inj.mp hfirst
      obtain ⟨last, hlast⟩ : ∃ last, (x :: xs)[xs.length]? = some last :=
        ⟨_, List.getElem?_eq_getElem (Nat.lt_succ_self xs.length)⟩
      have hlast' : ((x :: xs).map key)[xs.length]? = some (key last) := by
        rw [List.getElem?_map, hlast]
        rfl
      have hplace : (key last).toNat = (key x).toNat + xs.length * stride :=
        hrow.inRow (key x) rfl _ _ hlast'
      have hle := hinside last (List.mem_of_getElem? hlast)
      rw [List.length_map, List.length_cons, Nat.succ_mul]
      omega

/-- Each element of a row ends inside the block. -/
theorem IsRow.le {base : Option Offset} {count : UInt64} {stride : Nat} {os : List Offset}
    (h : IsRow b base count stride os) {o : Offset} (ho : o ∈ os) : o.toNat + stride ≤ b.size := by
  obtain ⟨i, hi⟩ := List.mem_iff_getElem?.mp ho
  have hlt := (List.getElem?_eq_some_iff.mp hi).1
  obtain ⟨first, hfirst⟩ : ∃ first, os.head? = some first := by
    cases os with
    | nil => cases ho
    | cons first os => exact ⟨first, rfl⟩
  have hplace : o.toNat = first.toNat + i * stride := h.inRow.inRow first hfirst i o hi
  have hend := h.fits first hfirst
  have hmul : (i + 1) * stride ≤ os.length * stride := Nat.mul_le_mul_right _ hlt
  rw [Nat.succ_mul] at hmul
  omega

/-- What the elements of an array are read as. -/
theorem IsRow.exists_leaves {α : Type} [Stored α] {base : Option Offset} {count : UInt64}
    {os : List Offset} (h : IsRow b base count (Stored.size α) os) :
    ∃ leaves : List (Leaf Offset α), leaves.map (·.id) = os
      ∧ ∀ n ∈ leaves, Stored.readAt b n.id = .ok n.val := by
  have hinside := fun o => @IsRow.le b base count (Stored.size α) os h o
  clear h
  induction os with
  | nil => exact ⟨[], rfl, fun _ hn => (List.not_mem_nil hn).elim⟩
  | cons o os ih =>
    obtain ⟨a, ha⟩ : ∃ a : α, Stored.readAt b o = .ok a := Stored.exists_readAt (hinside o List.mem_cons_self)
    obtain ⟨leaves, rfl, hleaves⟩ := ih fun o' ho' => hinside o' (List.mem_cons_of_mem _ ho')
    exact ⟨⟨o, a⟩ :: leaves, rfl, List.forall_mem_cons.mpr ⟨ha, hleaves⟩⟩

/-! ### Statements -/

def checkKind (o : Offset) (raw : UInt8) : CheckM Unit :=
  match StmtKind.ofRaw? raw with
  | none => Check.fail (.unknownKind .statement o raw)
  | some kind => if kind.isLoopTarget then modify fun f => f.mark (.loop o) else pure ()

def checkLoop (o : Offset) : Option Offset → CheckM Unit
  | none => pure ()
  | some target => modify fun f => f.mark (.ref o target)

def checkNested (nested : Offset → CheckM Unit) : Option Offset → CheckM Unit
  | none => pure ()
  | some scope => nested scope

theorem checkStmt_eq (nested : Offset → CheckM Unit) (o : Offset) :
    Check.checkStmt b depth nested o = (do
      let r : StmtRecord Offset ← Check.element b o .statement
      checkKind o r.kind
      if maxExprs < r.exprCount.toNat then Check.fail (.tooManyExprs o r.exprCount.toNat)
      Check.checkSlots (Check.checkExpr b depth) o r.exprCount.toNat 0 r.exprs.toList
      checkLoop o r.loop
      checkNested nested r.scope
      Check.claimTextPtr b .label r.label
      Check.claimArray b r.switch r.switchCount (Stored.size UInt64) .switchLabels) := by
  unfold Check.checkStmt
  congr 1
  funext r
  -- Each of the four branches goes on with the same steps.
  cases hkind : StmtKind.ofRaw? r.kind with
  | none =>
    rw [checkKind, hkind]
    rfl
  | some kind =>
    rw [checkKind, hkind]
    cases htarget : kind.isLoopTarget <;> cases r.loop <;> cases r.scope <;> simp only [htarget] <;> rfl

/-- The kind byte must be one of the kinds; a loop kind leaves its mark. -/
theorem recognizes_checkKind (o : Offset) (raw : UInt8) :
    Recognizes (checkKind o raw) fun ms =>
      ∃ kind, StmtKind.ofRaw? raw = some kind ∧ ms = if kind.isLoopTarget then [.loop o] else [] := by
  unfold checkKind
  cases hkind : StmtKind.ofRaw? raw with
  | none =>
    refine (Recognizes.fail _).congr fun ms => ⟨fun h => h.elim, ?_⟩
    rintro ⟨kind, hkind', -⟩
    cases hkind'
  | some kind =>
    simp only [Option.some_inj, exists_eq_left']
    by_cases htarget : kind.isLoopTarget
    · rw [if_pos htarget, if_pos htarget]
      exact Recognizes.mark fun _ => trivial
    · rw [if_neg htarget, if_neg htarget]
      exact Recognizes.nil

theorem recognizes_checkLoop (o : Offset) (p : Option Offset) :
    Recognizes (checkLoop o p) (· = p.toList.map (.ref o)) := by
  cases p with
  | none => exact Recognizes.nil
  | some target => exact Recognizes.mark fun _ => trivial

/-- An absent scope pointer is accepted and leaves no mark. -/
theorem recognizes_checkNested {nested : Offset → CheckM Unit} {P : Scope Offset → Prop}
    (hnested : ∀ o, Recognizes (nested o) (MarksOf Scope.id P Scope.marks o)) (p : Option Offset) :
    Recognizes (checkNested nested p)
      (MarksOf (Option.map Scope.id) (fun s => ∀ t ∈ s, P t) nestedMarks p) := by
  have hcheck : checkNested nested p = p.elim (pure ()) nested := by cases p <;> rfl
  have hmarks : nestedMarks = fun s : Option (Scope Offset) => s.elim [] Scope.marks := by
    funext s
    cases s <;> rfl
  rw [hcheck, hmarks]
  exact Recognizes.option hnested p

theorem StmtKind.toRaw_of_ofRaw? {raw : UInt8} {k : StmtKind} (h : StmtKind.ofRaw? raw = some k) :
    k.toRaw = raw := by
  have hall : ∀ i : Fin all.length, (all[i.val]).toRaw = i.val.toUInt8 := by decide
  obtain ⟨hlt, rfl⟩ := List.getElem?_eq_some_iff.mp h
  exact (hall ⟨raw.toNat, hlt⟩).trans UInt8.ofNat_toNat

/-- Every word is the packing of a location. -/
theorem SourceLoc.pack_unpack (raw : UInt64) : (unpack raw).pack = raw := by
  have hraw : raw.toNat < range64 := raw.toNat_lt
  have hdiv : raw.toNat / range32 < range32 := by
    unfold range32 range64 at *
    omega
  have hline : (unpack raw).line.toNat = raw.toNat / range32 := UInt32.toNat_ofNat_of_lt' hdiv
  have hcol : (unpack raw).col.toNat = raw.toNat % range32 := UInt32.toNat_ofNat'
  apply UInt64.toNat_inj.mp
  rw [toNat_pack, hline, hcol]
  exact Nat.div_add_mod' _ _

theorem locWord_sourceLoc (r : StmtRecord Offset) : locWord r.sourceLoc = r.loc := by
  unfold StmtRecord.sourceLoc
  by_cases habsent : r.loc = Offset.absent
  · rw [if_pos habsent, habsent]
    rfl
  · rw [if_neg habsent]
    exact SourceLoc.pack_unpack r.loc

/-- The record of a statement is that of the statement which is made of what the record leads to. -/
theorem stmt_recordAt_eq {o : Offset} {r : StmtRecord Offset} {kind : StmtKind}
    {scope : Option (Scope Offset)} {exprs : List (Expr Offset)} {label : Option (Leaf Offset Text)}
    {switch : List (Leaf Offset UInt64)} {n : Nat} (hkind : StmtKind.ofRaw? r.kind = some kind)
    (hscope : scope.map Scope.id = r.scope)
    (hexprs : r.exprs.toList = (exprs.map Expr.id).map some ++ List.replicate n none)
    (hcount : exprs.length = r.exprCount.toNat) (hlabel : label.map (·.id) = r.label)
    (hbase : arrayBase (switch.map (·.id)) = r.switch) (hlength : switch.length.toUInt64 = r.switchCount) :
    (Stmt.mk ⟨o, kind, r.sourceLoc, r.loop, label, switch⟩ scope exprs).recordAt id = r := by
  -- The slots of the record are the expressions and, behind them, nothing.
  have htotal : maxExprs = exprs.length + n := by
    have h := congrArg List.length hexprs
    rw [Vector.length_toList, List.length_append, List.length_map, List.length_map,
      List.length_replicate] at h
    exact h
  have hslots : (Vector.ofFn fun i => (exprs[i.val]?).map Expr.id) = r.exprs := by
    apply Vector.toList_inj.mp
    have hrest : maxExprs - exprs.length = n := by omega
    rw [Vector.toList_ofFn, hexprs, ofFn_getElem? (by omega) Expr.id, hrest, List.map_map]
  have hword : exprCountWord exprs.length = r.exprCount := by
    apply UInt32.toNat_inj.mp
    exact (exprCountWord_of_le (by omega)).trans hcount
  have hraw := StmtKind.toRaw_of_ofRaw? hkind
  have hloc := locWord_sourceLoc r
  have hloop : r.loop.map id = r.loop := Option.map_id_apply
  have hswitch : (arrayBase (switch.map (·.id))).map id = r.switch := by rw [Option.map_id, hbase]; rfl
  calc
    (Stmt.mk ⟨o, kind, r.sourceLoc, r.loop, label, switch⟩ scope exprs).recordAt id
        = { kind := kind.toRaw, exprCount := exprCountWord exprs.length, loc := locWord r.sourceLoc,
            loop := r.loop.map id, scope := scope.map Scope.id,
            exprs := Vector.ofFn fun i => (exprs[i.val]?).map Expr.id, label := label.map (·.id),
            switch := (arrayBase (switch.map (·.id))).map id, switchCount := switch.length.toUInt64 } := rfl
    _ = r := by rw [hraw, hword, hloc, hloop, hscope, hslots, hlabel, hswitch, hlength]

/-- Checking a statement accepts exactly the offsets of statements, provided the check of nested
scopes does so one level down. The parts are recognised one by one, in the order of the check. -/
theorem recognizes_checkStmt {nested : Offset → CheckM Unit}
    (hnested : ∀ o, Recognizes (nested o) (MarksOf Scope.id (FoundScope b depth) Scope.marks o))
    (o : Offset) :
    Recognizes (Check.checkStmt b depth nested o)
      (MarksOf Stmt.id (FoundStmt b depth) Stmt.marks o) := by
  rw [checkStmt_eq]
  refine (Recognizes.element fun r _ => (recognizes_checkKind o r.kind).bind
    (Recognizes.guarded _ fun hfew => (recognizes_checkSlots (recognizes_checkExpr b depth) o ?_).bind
      ((recognizes_checkLoop o r.loop).bind ((recognizes_checkNested hnested r.scope).bind
        ((recognizes_claimTextPtr b _ r.label).bind
          (recognizes_claimArray b r.switch r.switchCount _ _)))))).congr fun ms => ⟨?_, ?_⟩
  · rw [Vector.length_toList, Nat.zero_add]
    exact Nat.not_lt.mp hfew
  · -- What the steps found one by one is put together to a statement.
    rintro ⟨r, hread, _, _, ⟨kind, hkind, rfl⟩, ⟨hfew, _, _, ⟨exprs, n, hslots, hcount, hall, rfl⟩, ⟨_, _, rfl, ⟨_, _,
      ⟨scope, hscope, hscopeFound, rfl⟩, ⟨_, _, ⟨label, hlabel, hlabelHeld, rfl⟩,
      ⟨labels, hlabels, rfl⟩, rfl⟩, rfl⟩, rfl⟩, rfl⟩, rfl⟩
    obtain ⟨switch, rfl, hswitch⟩ := hlabels.exists_leaves
    rw [Nat.sub_zero] at hcount
    have hlength := hlabels.count
    rw [List.length_map] at hlength
    have hrecord := stmt_recordAt_eq (o := o) hkind hscope hslots hcount hlabel hlabels.base hlength
    refine ⟨⟨⟨o, kind, r.sourceLoc, r.loop, label, switch⟩, scope, exprs⟩, rfl, ?_, ?_⟩
    · refine (foundStmt_iff _ _ _).mpr ⟨?_, ?_, hall, hscopeFound, hlabelHeld, hlabels.inRow, hswitch⟩
      · rw [hrecord]
        exact hread
      · rw [hcount]
        exact Nat.not_lt.mp hfew
    · rfl
  · -- A statement that is found is taken apart for the steps.
    rintro ⟨⟨head, scope, exprs⟩, rfl, hfound, rfl⟩
    obtain ⟨hread, hfew, hall, hscope, hlabel, hrow, hswitch⟩ := (foundStmt_iff _ _ _).mp hfound
    let r := (Stmt.mk head scope exprs).recordAt id
    have hkind : StmtKind.ofRaw? r.kind = some head.kind := StmtKind.ofRaw?_toRaw head.kind
    have hcount : r.exprCount.toNat = exprs.length := exprCountWord_of_le hfew
    have hfew' : ¬maxExprs < r.exprCount.toNat := by
      rw [hcount]
      exact Nat.not_lt.mpr hfew
    have hslots : r.exprs.toList
        = (exprs.map Expr.id).map some ++ List.replicate (maxExprs - exprs.length) none := by
      rw [List.map_map]
      exact (Vector.toList_ofFn).trans (ofFn_getElem? hfew Expr.id)
    have hlength : exprs.length = r.exprCount.toNat - 0 := by rw [hcount, Nat.sub_zero]
    have href : head.refMark = r.loop.toList.map (.ref head.id) := by
      have hloop : r.loop = head.loop := Option.map_id_apply
      rw [hloop]
      rfl
    have hlabels : IsRow b r.switch r.switchCount (Stored.size UInt64) (head.switch.map (·.id)) :=
      hrow.isRow (of_decide_eq_true rfl) fun n hn => Stored.le_of_readAt (hswitch n hn)
    exact ⟨r, hread, _, _, ⟨head.kind, hkind, rfl⟩, ⟨hfew', _, _, ⟨exprs, _, hslots, hlength, hall, rfl⟩, ⟨_, _, href,
      ⟨_, _, ⟨scope, rfl, hscope, rfl⟩, ⟨_, _, ⟨head.label, rfl, hlabel, rfl⟩, ⟨_, hlabels, rfl⟩, rfl⟩, rfl⟩,
      rfl⟩, rfl⟩, rfl⟩

/-! ### Scopes -/

/-- An array is claimed, and what follows is done with its places. -/
theorem Recognizes.array {base : Option Offset} {count : UInt64} {stride : Nat} {what : Region}
    {d : CheckM Unit} {M : List Offset → List Mark → Prop}
    (hd : ∀ os, (Places.ofArray base count stride).Lists os → Recognizes d (M os)) :
    Recognizes (Check.claimArray b base count stride what >>= fun _ => d) fun ms =>
      ∃ os, IsRow b base count stride os ∧ ∃ ms', M os ms' ∧ ms = rowMarks what stride os ++ ms' := by
  have h := (recognizes_claimArray b base count stride what).bind_dep fun os _ hos => hd os hos.1.lists
  refine h.congr fun ms => ⟨?_, ?_⟩
  · rintro ⟨os, _, ms', ⟨hos, rfl⟩, hms', rfl⟩
    exact ⟨os, hos, ms', hms', rfl⟩
  · rintro ⟨os, hos, ms', hms', rfl⟩
    exact ⟨os, _, ms', ⟨hos, rfl⟩, hms', rfl⟩

/-- Checking the places of a row accepts exactly the rows of whatever the single check accepts. -/
theorem Recognizes.places {α : Type} {p : Places} {os : List Offset} {step : Offset → CheckM Unit}
    {key : α → Offset} {P : α → Prop} {marks : α → List Mark} (h : p.Lists os)
    (hstep : ∀ o, Recognizes (step o) (MarksOf key P marks o)) :
    Recognizes (Check.forPlaces p step p.count 0)
      (MarksOf (List.map key) (fun xs => ∀ x ∈ xs, P x) (List.flatMap marks) os) := by
  rw [h.forPlaces]
  exact Recognizes.nodes hstep os

/-- That a statement begins at an offset is noted without looking at the statement. -/
theorem recognizes_noteStmt (o : Offset) :
    Recognizes (modify fun f => { f with stmts := f.stmts.insert o })
      (MarksOf (fun o => o) (fun _ => True) (fun o => [.stmt o]) o) := by
  refine (Recognizes.mark (m := .stmt o) fun _ => trivial).congr fun ms => ⟨?_, ?_⟩
  · rintro rfl
    exact ⟨o, rfl, trivial, rfl⟩
  · rintro ⟨_, rfl, -, rfl⟩
    rfl

/-- The record of a scope is that of the scope which is made of what the record leads to. -/
theorem scope_recordAt_eq {o : Offset} {r : ScopeRecord Offset} {locals : List (Local Offset)}
    {stmts : List (Stmt Offset)}
    (hlocals : IsRow b r.locals r.localCount (Stored.size (DeclRecord Offset)) (locals.map (·.id)))
    (hstmts : IsRow b r.stmts r.stmtCount (Stored.size (StmtRecord Offset)) (stmts.map (·.id))) :
    (Scope.mk o locals stmts).recordAt id = r := by
  have hlocalBase : (arrayBase (locals.map (·.id))).map id = r.locals := by
    rw [Option.map_id, hlocals.base]
    rfl
  have hstmtBase : (arrayBase (stmts.map (·.id))).map id = r.stmts := by
    rw [Option.map_id, hstmts.base]
    rfl
  have hlocalCount := hlocals.count
  have hstmtCount := hstmts.count
  rw [List.length_map] at hlocalCount hstmtCount
  rw [Scope.recordAt, hlocalBase, hstmtBase, hlocalCount, hstmtCount]

/-- Checking a scope accepts exactly the offsets of scopes. The induction is on the depth the
check has left, which bounds the nesting of the scopes found. -/
theorem recognizes_checkScope (b : Block) (depth : Nat) (o : Offset) :
    Recognizes (Check.checkScope b depth o) (MarksOf Scope.id (FoundScope b depth) Scope.marks o) := by
  -- Only a nested scope takes a level: its statements are checked at the level below.
  induction depth generalizing o with
  | zero =>
    refine (Recognizes.throw _).congr fun ms => ⟨fun h => h.elim, ?_⟩
    rintro ⟨⟨o', locals, stmts⟩, -, hfound, -⟩
    cases hfound.height
  | succ depth ih =>
    unfold Check.checkScope
    refine ((recognizes_claim b o _ _).bind (Recognizes.read fun r _ => Recognizes.array fun ls hls =>
      (Recognizes.places hls (recognizes_checkLocal b)).bind (Recognizes.array fun ss hss =>
        (Recognizes.places hss recognizes_noteStmt).bind
          (Recognizes.places hss (recognizes_checkStmt ih))))).congr fun ms => ⟨?_, ?_⟩
    · rintro ⟨_, _, ⟨haligned, -, rfl⟩, ⟨r, hread, _, hlocalRow, _, ⟨_, _, ⟨locals, rfl, hlocals, rfl⟩,
        ⟨_, hstmtRow, _, ⟨_, _, ⟨os, hos, -, rfl⟩, ⟨stmts, rfl, hstmts, rfl⟩, rfl⟩, rfl⟩, rfl⟩, rfl⟩, rfl⟩
      have hrecord := scope_recordAt_eq (o := o) hlocalRow hstmtRow
      -- The pass that notes the statements and the pass that checks them go over the same places.
      rw [List.map_id'] at hos
      refine ⟨⟨o, locals, stmts⟩, rfl, (foundScope_iff _ _ _).mpr ⟨haligned, ?_, hlocalRow.inRow, hlocals,
        hstmtRow.inRow, hstmts⟩, ?_⟩
      · rw [hrecord]
        exact hread
      · rw [Scope.marks, stmtListMarks_eq, hos, ← List.map_eq_flatMap, ← List.map_eq_flatMap, List.map_map]
        rfl
    · rintro ⟨⟨o, locals, stmts⟩, rfl, hfound, rfl⟩
      obtain ⟨haligned, hread, hlocalRow, hlocals, hstmtRow, hstmts⟩ := (foundScope_iff _ _ _).mp hfound
      let r := (Scope.mk o locals stmts).recordAt id
      have hls : IsRow b r.locals r.localCount (Stored.size (DeclRecord Offset)) (locals.map (·.id)) :=
        hlocalRow.isRow (of_decide_eq_true rfl) fun l hl => (hlocals l hl).2.le
      have hss : IsRow b r.stmts r.stmtCount (Stored.size (StmtRecord Offset)) (stmts.map (·.id)) :=
        hstmtRow.isRow (of_decide_eq_true rfl) fun s hs => Stored.le_of_readAt (hstmts s hs).record
      refine ⟨_, _, ⟨haligned, Stored.le_of_readAt hread, rfl⟩, ⟨r, hread, _, hls, _, ⟨_, _,
        ⟨locals, rfl, hlocals, rfl⟩, ⟨_, hss, _, ⟨_, _, ⟨stmts.map (·.id), List.map_id' _, fun _ _ => trivial,
        rfl⟩, ⟨stmts, rfl, hstmts, rfl⟩, rfl⟩, rfl⟩, rfl⟩, rfl⟩, ?_⟩
      rw [Scope.marks, stmtListMarks_eq, ← List.map_eq_flatMap, ← List.map_eq_flatMap, List.map_map]
      rfl

end TreePack
