import TreePack.Record.Codec

namespace TreePack

variable {ι : Type}

def arrayBase (ids : List ι) : Option ι := ids.head?

def locWord : Option SourceLoc → UInt64
  | some loc => loc.pack
  | none => Offset.absent

def exprCountWord (count : Nat) : UInt32 :=
  if count < range32 then count.toUInt32 else 0xFFFFFFFF

def Scope.cell (s : Scope ι) : Cell ι :=
  .scope
    { locals := arrayBase (s.locals.map (·.id))
      localCount := s.locals.length.toUInt64
      stmts := arrayBase (s.stmts.map (·.id))
      stmtCount := s.stmts.length.toUInt64 }

def Local.cell (l : Local ι) : Cell ι :=
  .decl
    { name := some l.name.id
      ty := l.ty
      isFunction := false
      argCount := 0
      args := none
      body := none }

/-- Of more expressions than the record has room for, it holds the first ones and the count of all. -/
def Stmt.cell (s : Stmt ι) : Cell ι :=
  .stmt
    { kind := s.head.kind.toRaw
      exprCount := exprCountWord s.exprs.length
      loc := locWord s.head.loc
      loop := s.head.loop
      scope := s.scope.map (·.id)
      exprs := Vector.ofFn fun i => (s.exprs[i.val]?).map Expr.id
      label := s.head.label.map (·.id)
      switch := arrayBase (s.head.switch.map (·.id))
      switchCount := s.head.switch.length.toUInt64 }

def Expr.cell (e : Expr ι) : Cell ι :=
  .expr
    { kind := e.head.kind.toRaw
      value := e.head.value
      ty := e.head.ty
      symbol := e.head.symbol.map (·.id)
      method := e.head.method.map (·.id)
      children := Vector.ofFn fun i => (e.children.get i).map Expr.id }

end TreePack
