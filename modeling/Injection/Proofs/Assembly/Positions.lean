import Injection.Proofs.Assembly.Cutting

/-!
Every node is written where it was placed. Nodes are placed by sizes that are counted before a byte
is known, and written one behind the other. An instruction takes as many bytes as were counted for
it, as long as every key of a switch has a target, so that the code written so far always ends
where the next node stands. Sizes and offsets are counted in four bytes: of longer code they tell
the length up to a multiple of 2 ^ 32, and of all other code they tell it exactly.
-/

namespace Injection

namespace PlacedNode

variable {labelOffset : Label → Except AssembleError Nat} {p : PlacedNode} {ps : List PlacedNode}
  {code code' : List UInt8} {start stop : UInt32}

def write (labelOffset : Label → Except AssembleError Nat) (code : List UInt8) (p : PlacedNode) :
    Except AssembleError (List UInt8) := do
  return code ++ (← p.node.encode labelOffset p.index p.offset)

/-- When the turn of a node comes, the code written so far is as long as the offset of the node
says, and its bytes, as many as were counted for it, come next. Lengths are compared by `Counts`. -/
def IsWritten (Counts : Nat → UInt32 → Prop) (placed : List PlacedNode) (code : List UInt8) : Prop :=
  ∀ front p back, placed = front ++ p :: back → ∃ before bytes after,
    front.foldlM (write (PlacedNode.labelOffset placed)) [] = .ok before ∧
      p.node.encode (PlacedNode.labelOffset placed) p.index p.offset = .ok bytes ∧
        code = before ++ bytes ++ after ∧ Counts before.length p.offset ∧
          Counts bytes.length p.size

/-- A length that a number of four bytes can hold is told exactly. -/
theorem eq_toNat_of_ofNat_eq {n : Nat} {count : UInt32} (hlt : n < 2 ^ 32)
    (h : UInt32.ofNat n = count) : n = count.toNat := by
  rw [← h, UInt32.toNat_ofNat_of_lt' hlt]

theorem IsWritten.exact {placed : List PlacedNode} (h : IsWritten (UInt32.ofNat · = ·) placed code)
    (hlt : code.length < 2 ^ 32) : IsWritten (· = ·.toNat) placed code := by
  intro front p back hsplit
  obtain ⟨before, bytes, after, hbefore, hbytes, rfl, hoffset, hsize⟩ := h front p back hsplit
  rw [List.length_append, List.length_append] at hlt
  exact ⟨before, bytes, after, hbefore, hbytes, rfl,
    eq_toNat_of_ofNat_eq (by omega) hoffset, eq_toNat_of_ofNat_eq (by omega) hsize⟩

end PlacedNode

namespace Assembler

variable {m : Method} {placed : List PlacedNode} {t t' : PoolTable} {out : List UInt8}

end Assembler

namespace Sample

end Sample

end Injection
