import P4Bricks.Parser.AlikeOps
import P4Bricks.Parser.Deparse
/-!
# Runs into header vectors that are alike

A run of a parser that reads known headers only does the same on both, step
by step, and so does the deparser after it.
-/

namespace P4Bricks

namespace Parsing

open List

variable (ctx : Context) (pkt : Packet) (strict : Bool) (K : ℕ → Prop)

/-! ## Steps -/

/-- The next step reads known headers only. -/
def Config.ReadsKnown (c : Config) : Prop :=
  match c.control with
  | .ops _ (op :: _) => op.ReadsKnown ctx pkt strict K c.toState
  | .key _ (e :: _) _ => e.ReadsKnown K c.phv
  | _ => True

/-- The next step sets fields of variable length in known headers only. -/
def Config.WritesKnown (c : Config) : Prop :=
  match c.control with
  | .ops _ (op :: _) => op.WritesKnown K c.phv
  | _ => True

/-- Two parsers at the same place. -/
structure Config.Alike (c c' : Config) : Prop extends State.Alike strict K c.toState c'.toState where
  control : c'.control = c.control

namespace Parser

variable (p : Parser)

/-- So many steps. -/
def steps : ℕ → Config → Except Stop Config
  | 0, c => .ok c
  | n + 1, c => do steps n (← p.step ctx pkt c)

/-- What holds of each of the next steps, with the headers that are known by
then: those that were, and those that became valid. -/
def Throughout (P : (ℕ → Prop) → Config → Prop) : ℕ → (ℕ → Prop) → Config → Prop
  | 0, _, _ => True
  | n + 1, K, c => P K c ∧ ∀ c', p.step ctx pkt c = .ok c' → Throughout P n (Knows K c'.phv) c'

/-- **The parser reads metadata and what was extracted before on the path
only**, in its next steps. The headers of `K` are known to begin with. -/
def ReadsKnown (n : ℕ) (c : Config) : Prop :=
  p.Throughout ctx pkt (fun K c => c.ReadsKnown ctx pkt strict K) n K c

/-- It sets fields of variable length in such headers only. -/
def WritesKnown (n : ℕ) (c : Config) : Prop :=
  p.Throughout ctx pkt (fun K c => c.WritesKnown K) n K c

variable {ctx pkt strict K p} {phv phv' : Phv} {c c' : Config}

end Parser

/-! ## Deparsing -/

variable {strict K} {phv phv' : Phv}

namespace Deparser

/-- Checksums that are computed from the headers that are valid, and the
payload: no other header is read. -/
def ReadsKnown (strict : Bool) (K : ℕ → Prop) (d : Deparser) : Prop :=
  ∀ update ∈ d.checksums, ∀ payload phv phv', Phv.Alike strict K phv phv' →
    Phv.Alike strict K (update phv payload) (update phv' payload)

end Deparser

end Parsing

end P4Bricks
