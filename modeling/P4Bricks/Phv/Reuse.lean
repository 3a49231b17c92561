import P4Bricks.Parser.AlikeRuns
import P4Bricks.Phv.Helpers.Copies
/-!
# Header vectors that are used again

The owner of a packet returns its header vector after a reset, and the next
one resets the metadata. To a parser that reads metadata and what it has
extracted only, the header vector is then like a new one, whatever was done
to it before, if no metadata has a field of variable length: `reset_VL` leaves
such a field with the mask of one bit, and a new one has the mask of none.
-/

namespace P4Bricks

open Parsing List

namespace Phv

/-- What the owner of a header vector sees of it: which headers are valid, what
these and the metadata hold, the members that unions chose, and the stacks. -/
structure SameContents (phv phv' : Phv) : Prop where
  isValid : ∀ h : ℕ, (phv'.headers[h]?).map Header.isValid = (phv.headers[h]?).map Header.isValid
  contents : ∀ (h : ℕ) (x x' : Header), phv.headers[h]? = some x → phv'.headers[h]? = some x' →
    x.isValid = true →
      x'.fields.map Field.view = x.fields.map Field.view ∧ x'.nbytesPacket = x.nbytesPacket
  choice : ∀ u, phv'.choice u = phv.choice u
  headerStacks : phv'.headerStacks = phv.headerStacks
  headerUnionStacks : phv'.headerUnionStacks = phv.headerUnionStacks

variable {s : Bool} {K : ℕ → Prop} {phv phv' : Phv}

end Phv

/-! ## Like a new one -/

namespace Field

end Field

namespace PhvFactory

variable {F : PhvFactory} {phv : Phv}

theorem Reaches.reset (h : F.Reaches phv) : F.Reaches phv.reset :=
  .op h (show Phv.Op.reset.run phv = .ok phv.reset from rfl)

theorem create_lastHidden (hF : F.WellFormed) : ∀ x ∈ F.create.headers, x.LastHidden := by
  intro x hx
  obtain ⟨g, hg⟩ := List.mem_iff_getElem?.mp hx
  obtain ⟨desc, -, heq⟩ := create_header hF hg
  intro i f hf hhid
  have hf' : desc.create.fields[i]? = some f := by rw [← heq]; exact hf
  refine ⟨?_, desc.create_fixed hf' hhid⟩
  have hlast := (desc.create_hidden hf').mp hhid
  rw [← heq] at hlast
  exact hlast

section

variable {g : ℕ} {x x' : Header}

end

end PhvFactory

/-! ## Parsing the next packet -/

namespace Parsing

/-- `Parser::parse`, of which so many steps are taken. -/
def Parser.run (p : Parser) (ctx : Context) (pkt : Packet) (n : ℕ) (phv : Phv)
    (registers : Registers) : Except Stop Config := do
  p.steps ctx pkt n (← p.start phv registers)

/-- Two parsers that cannot be told apart: they are at the same place, with the
same contents, and the deparser emits the same bytes for both. -/
structure Config.Same (d : Deparser) (c c' : Config) : Prop where
  control : c'.control = c.control
  registers : c'.registers = c.registers
  bytesParsed : c'.bytesParsed = c.bytesParsed
  contents : Phv.SameContents c.phv c'.phv
  deparsed : ∀ buffer, d.deparse c'.phv buffer = d.deparse c.phv buffer

end Parsing

end P4Bricks
