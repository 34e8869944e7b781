import TreePack.Packed.Basic
import TreePack.Proofs.BlockReads
import TreePack.Proofs.Pieces
import TreePack.Proofs.ReadBack

namespace TreePack

variable {ι : Type}

/-- What a block holds at an offset is what the cell says. The argument count of a declaration is left open:
it belongs to functions, and no declaration of a scope is read as one. -/
def Block.Holds (b : Block) (o : Offset) : Cell Offset → Prop
  | .scope r => Stored.readAt b o = .ok r
  | .decl r => ∃ argCount, Stored.readAt b o = .ok { r with argCount }
  | .stmt r => Stored.readAt b o = .ok r
  | .expr r => Stored.readAt b o = .ok r
  | .text t => b.get? o.toNat t.stored.length = some t.stored
  | .switchLabel n => Stored.readAt b o = .ok n
  | .type t => Stored.readAt b o = .ok t

/-- What a block holds ends inside it. -/
theorem Block.le_of_holds {b : Block} {o : Offset} {c : Cell Offset} (h : b.Holds o c) :
    o.toNat + c.size ≤ b.size := by
  cases c with
  | decl r =>
    obtain ⟨argCount, hread⟩ := h
    exact Stored.le_of_readAt hread
  | text t => exact Block.le_of_get? h
  | scope r => exact Stored.le_of_readAt h
  | stmt r => exact Stored.le_of_readAt h
  | expr r => exact Stored.le_of_readAt h
  | switchLabel n => exact Stored.le_of_readAt h
  | type t => exact Stored.le_of_readAt h

/-- A block that has the bytes of a cell holds the cell. -/
theorem Block.holds_of_get? {b : Block} {o : Offset} {c : Cell Offset}
    (hptrs : ∀ p ∈ c.pointers, p.raw ≠ Offset.absent)
    (h : b.get? o.toNat c.size = some c.encode) : b.Holds o c := by
  have hread {α : Type} [Stored α] {a : α} (hdecode : Stored.decode (Stored.encode a ++ []) = a)
      (hget : b.get? o.toNat (Stored.size α) = some (Stored.encode a)) : Stored.readAt b o = .ok a := by
    rw [List.append_nil] at hdecode
    exact Stored.readAt_eq_ok_iff.mpr ⟨_, hget, hdecode⟩
  cases c with
  | scope r => exact hread (ScopeRecord.decode_encode_append hptrs []) h
  | decl r => exact ⟨r.argCount, hread (DeclRecord.decode_encode_append hptrs []) h⟩
  | stmt r => exact hread (StmtRecord.decode_encode_append hptrs []) h
  | expr r => exact hread (ExprRecord.decode_encode_append hptrs []) h
  | text t => exact h
  | switchLabel n => exact hread (decode_encode_append_word n []) h
  | type t => exact hread (TypeDesc.decode_encode_append t []) h

structure Piece.HeldIn (b : Block) (place : ι → Offset) (p : Piece ι) : Prop where
  aligned : (place p.first.id).toNat % alignment = 0
  inRow : ∀ i c, p.cells[i]? = some c →
    (place c.id).toNat = (place p.first.id).toNat + i * p.first.val.size
  held : ∀ c ∈ p.cells, b.Holds (place c.id) (c.val.map place)

def Held (b : Block) (place : ι → Offset) (ps : List (Piece ι)) : Prop := ∀ p ∈ ps, p.HeldIn b place

section

variable {b : Block} {place : ι → Offset}

@[simp] theorem held_nil : Held b place [] := fun _ h => (List.not_mem_nil h).elim

@[simp] theorem held_cons (p : Piece ι) (ps : List (Piece ι)) :
    Held b place (p :: ps) ↔ p.HeldIn b place ∧ Held b place ps := List.forall_mem_cons

@[simp] theorem held_append (ps qs : List (Piece ι)) :
    Held b place (ps ++ qs) ↔ Held b place ps ∧ Held b place qs := List.forall_mem_append

/-- A piece of one cell is held where the cell is, aligned. -/
theorem held_single (id : ι) (cell : Cell ι) :
    (Piece.single id cell).HeldIn b place
      ↔ (place id).toNat % alignment = 0 ∧ b.Holds (place id) (cell.map place) := by
  constructor
  · intro h
    exact ⟨h.aligned, h.held ⟨id, cell⟩ List.mem_cons_self⟩
  · rintro ⟨haligned, hheld⟩
    refine ⟨haligned, fun i c hc => ?_, fun c hc => ?_⟩
    · cases i with
      | zero =>
        cases hc
        simp [Piece.single]
      | succ i => cases hc
    · rw [List.mem_singleton.mp hc]
      exact hheld

/-- A text is held where its bytes are, terminator included. -/
theorem held_textPiece (t : Leaf ι Text) :
    (textPiece t).HeldIn b place ↔ (place t.id).toNat % alignment = 0
      ∧ b.get? (place t.id).toNat t.val.stored.length = some t.val.stored := held_single _ _

/-- The text of a piece that is held is read at its offset. -/
theorem readText_of_held {t : Leaf ι Text} (h : (textPiece t).HeldIn b place) :
    b.readText (place t.id) = .ok t.val := by
  rw [Block.readText, Block.textAt_eq_text_iff.mpr ((held_textPiece t).mp h).2]

structure InRow (place : ι → Offset) (stride : Nat) (ids : List ι) : Prop where
  aligned : ∀ first ∈ ids.head?, (place first).toNat % alignment = 0
  inRow : ∀ first ∈ ids.head?, ∀ i id, ids[i]? = some id →
    (place id).toNat = (place first).toNat + i * stride

/-- An array is held where its elements stand in a row and each is held there. -/
theorem held_arrayPieces {cells : List (Leaf ι (Cell ι))} {stride : Nat}
    (hsize : ∀ c ∈ cells, c.val.size = stride) :
    Held b place (arrayPieces cells) ↔ InRow place stride (cells.map (·.id))
      ∧ ∀ c ∈ cells, b.Holds (place c.id) (c.val.map place) := by
  -- No piece is set aside for an empty array, and no offset is asked of it.
  cases cells with
  | nil =>
    refine ⟨fun _ => ⟨⟨fun _ h => ?_, fun _ h => ?_⟩, fun _ h => ?_⟩, fun _ => held_nil⟩
    · cases h
    · cases h
    · cases h
  | cons first others =>
    have hfirst : first.val.size = stride := hsize first List.mem_cons_self
    rw [arrayPieces, held_cons]
    constructor
    · rintro ⟨⟨haligned, hrow, hheld⟩, -⟩
      refine ⟨⟨fun f hf => ?_, fun f hf i id hid => ?_⟩, hheld⟩
      · cases hf
        exact haligned
      · cases hf
        rw [List.getElem?_map] at hid
        obtain ⟨c, hc, hcid⟩ := Option.map_eq_some_iff.mp hid
        rw [← hcid, ← hfirst]
        exact hrow i c hc
    · rintro ⟨hrow, hheld⟩
      refine ⟨⟨hrow.aligned first.id rfl, fun i c hc => ?_, hheld⟩, held_nil⟩
      rw [hfirst]
      apply hrow.inRow first.id rfl i c.id
      rw [List.getElem?_map]
      exact congrArg (Option.map (·.id)) hc

end

end TreePack
