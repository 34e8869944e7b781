import Std.Data.HashMap
import TreePack.Compact.Error

namespace TreePack

inductive NodeKind where
  | scope
  | decl
  | stmt
  | expr
  | text
  | switchLabel
  | argType
  deriving DecidableEq, Inhabited, Repr

namespace NodeKind

def name : NodeKind → String
  | scope => "Scope"
  | decl => "Decl"
  | stmt => "Stmt"
  | expr => "Expr"
  | text => "Text"
  | switchLabel => "SwitchLabel"
  | argType => "ArgType"

def inArray : NodeKind → Bool
  | decl | stmt | switchLabel => true
  | scope | expr | text | argType => false

end NodeKind

structure LedgerEntry where
  offset : Offset
  kind : NodeKind
  deriving DecidableEq

structure Ledger (ι : Type) [DecidableEq ι] [Hashable ι] where
  entries : Std.HashMap ι LedgerEntry
  duplicates : Nat

namespace Ledger

variable {ι : Type} [DecidableEq ι] [Hashable ι]

def empty : Ledger ι := ⟨∅, 0⟩

def entry? (l : Ledger ι) (node : ι) : Option LedgerEntry := l.entries[node]?

def size (l : Ledger ι) : Nat := l.entries.size

/-- Enters a node at an offset. The first entry of a node stands: a repeat at the same offset is counted, and one
at another offset is refused. -/
def register (node : ι) (offset : Offset) (kind : NodeKind) :
    EStateM (CompactError ι) (Ledger ι) Unit := fun l =>
  match l.entry? node with
  | none => .ok () { l with entries := l.entries.insert node ⟨offset, kind⟩ }
  | some first =>
    if first.offset = offset then .ok () { l with duplicates := l.duplicates + 1 }
    else .error (.conflictingRegistration node first.offset offset) l

def resolve (l : Ledger ι) (node : ι) : Except (CompactError ι) Offset :=
  match l.entry? node with
  | some entry => .ok entry.offset
  | none => .error (.ledgerMiss node)

def offset (l : Ledger ι) (node : ι) : Offset := ((l.entry? node).map (·.offset)).getD Offset.zero

/-- A node resolves to the offset of its entry. -/
theorem resolve_eq_ok_iff (l : Ledger ι) (node : ι) (o : Offset) :
    l.resolve node = .ok o ↔ ∃ entry, l.entry? node = some entry ∧ entry.offset = o := by
  unfold resolve
  cases l.entry? node with
  | none => simp
  | some entry => simp

theorem offset_of_resolve {l : Ledger ι} {node : ι} {o : Offset} (h : l.resolve node = .ok o) :
    l.offset node = o := by
  obtain ⟨entry, hentry, ho⟩ := (resolve_eq_ok_iff l node o).mp h
  simp [offset, hentry, ho]

end Ledger

end TreePack
