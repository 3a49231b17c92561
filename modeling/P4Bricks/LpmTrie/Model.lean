import Mathlib.Data.Set.Subsingleton
import P4Bricks.Common.Bits
/-!
# The longest-prefix trie

`bf_lpm_trie.c`. A node branches on whole bytes and keeps, in a second
map, the prefixes that end inside the next byte. Two `unsigned char`
counters stand beside the maps: deletion reads them, never the maps, to
decide whether a node can be freed on the way back to the root.

The Judy arrays are finite maps and are modelled by partial functions.
The `parent` and `child_id` fields are the list of `Frame`s a descent
passes, nearest ancestor first.
-/

namespace P4Bricks

namespace LpmTrie

/-- `node_t`. -/
structure Node where
  /-- `PJLarray_branches`: the child under each byte. -/
  branches : UInt8 → Option Node
  /-- `PJLarray_prefixes`: the value under each prefix key. -/
  prefixes : ℕ → Option ℕ
  branchNum : UInt8
  prefNum : UInt8

/-- `bf_lpm_trie_t`. -/
structure Trie where
  root : Node
  keyWidthBytes : ℕ
  releaseMemory : Bool

/-- A node fresh from `malloc` and `memset`. -/
def allocateNode : Node := ⟨fun _ => none, fun _ => none, 0, 0⟩

/-- `bf_lpm_trie_create`. -/
def create (keyWidthBytes : ℕ) (autoShrink : Bool) : Trie :=
  ⟨allocateNode, keyWidthBytes, autoShrink⟩

/-! ## Node operations -/

def Node.getNextNode (n : Node) (byte : UInt8) : Option Node := n.branches byte

def Node.setNextNode (n : Node) (byte : UInt8) (next : Node) : Node :=
  { n with branches := Function.update n.branches byte (some next) }

def Node.deleteBranch (n : Node) (byte : UInt8) : Node :=
  { n with branches := Function.update n.branches byte none }

/-- The key of a prefix ending `prefixLength` bits into `byte`. -/
def getPrefixKey (prefixLength : ℕ) (byte : UInt8) : ℕ :=
  if prefixLength ≠ 0 then (byte.toNat >>> (8 - prefixLength)) + (prefixLength <<< 8) else 0

/-- Whether the key was present is read off the old value: a key stored
with value `0` looks absent. -/
def Node.insertPrefix (n : Node) (prefixKey value : ℕ) : Node × Bool :=
  ({ n with prefixes := Function.update n.prefixes prefixKey (some value) },
    decide ((n.prefixes prefixKey).getD 0 ≠ 0))

def Node.getPrefixPtr (n : Node) (prefixKey : ℕ) : Option ℕ := n.prefixes prefixKey

def Node.deletePrefix (n : Node) (prefixKey : ℕ) : Node :=
  { n with prefixes := Function.update n.prefixes prefixKey none }

/-- The key of what is left of a prefix once its whole bytes are used up. -/
def lastKey (pfx : List UInt8) (prefixLength : ℕ) : ℕ :=
  if prefixLength = 0 then 0 else getPrefixKey prefixLength (pfx.headD 0)

/-! ## Insertion and retrieval -/

/-- The end of `bf_lpm_trie_insert`: store the value in the node the loop
stopped at. -/
def Node.store (n : Node) (prefixKey value : ℕ) : Node :=
  let (n', present) := n.insertPrefix prefixKey value
  if present then n' else { n' with prefNum := n'.prefNum + 1 }

/-- The loop of `bf_lpm_trie_insert`. A missing child is allocated, linked
and counted before the loop moves to it. -/
def Node.insert : Node → List UInt8 → ℕ → ℕ → Node
  | n, [], prefixLength, value => n.store (lastKey [] prefixLength) value
  | n, byte :: pfx, prefixLength, value =>
    if 8 ≤ prefixLength then
      match n.getNextNode byte with
      | some node => n.setNextNode byte (node.insert pfx (prefixLength - 8) value)
      | none =>
        let n' := n.setNextNode byte (allocateNode.insert pfx (prefixLength - 8) value)
        { n' with branchNum := n'.branchNum + 1 }
    else n.store (lastKey (byte :: pfx) prefixLength) value

/-- `bf_lpm_trie_insert`. -/
def Trie.insert (t : Trie) (pfx : List UInt8) (prefixLength value : ℕ) : Trie :=
  { t with root := t.root.insert pfx prefixLength value }

/-- The loop of `bf_lpm_trie_retrieve_value`. -/
def Node.retrieveValue : Node → List UInt8 → ℕ → Option ℕ
  | n, [], prefixLength => n.getPrefixPtr (lastKey [] prefixLength)
  | n, byte :: pfx, prefixLength =>
    if 8 ≤ prefixLength then
      match n.getNextNode byte with
      | some node => node.retrieveValue pfx (prefixLength - 8)
      | none => none
    else n.getPrefixPtr (lastKey (byte :: pfx) prefixLength)

/-- `bf_lpm_trie_retrieve_value`. -/
def Trie.retrieveValue (t : Trie) (pfx : List UInt8) (prefixLength : ℕ) : Option ℕ :=
  t.root.retrieveValue pfx prefixLength

/-- `bf_lpm_trie_has_prefix`. -/
def Trie.hasPrefix (t : Trie) (pfx : List UInt8) (prefixLength : ℕ) : Bool :=
  (t.retrieveValue pfx prefixLength).isSome

/-! ## Lookup -/

/-- The inner loop of `bf_lpm_trie_lookup`: sub-byte prefixes, longest
first. -/
def Node.scanPrefixes (n : Node) (byte : UInt8) : Option ℕ :=
  [7, 6, 5, 4, 3, 2, 1].findSome? fun i => n.getPrefixPtr (getPrefixKey i byte)

/-- The outer loop of `bf_lpm_trie_lookup`, carrying the last value found. -/
def Node.lookup : Node → List UInt8 → Option ℕ → Option ℕ
  | n, [], found => (n.getPrefixPtr 0).or found
  | n, byte :: key, found =>
    let found := (n.scanPrefixes byte).or ((n.getPrefixPtr 0).or found)
    match n.getNextNode byte with
    | some node => node.lookup key found
    | none => found

/-- `bf_lpm_trie_lookup`. -/
def Trie.lookup (t : Trie) (key : List UInt8) : Option ℕ :=
  t.root.lookup (key.take t.keyWidthBytes) none

/-! ## Deletion -/

/-- A step of a descent: the node it left and the byte it followed. -/
structure Frame where
  parent : Node
  childId : UInt8

/-- Where the first loop of `bf_lpm_trie_delete` stops: the node, the way
back to the root, and the rest of the prefix. -/
structure Descent where
  node : Node
  frames : List Frame
  pfx : List UInt8
  prefixLength : ℕ

/-- The first loop of `bf_lpm_trie_delete`. -/
def descend : Node → List Frame → List UInt8 → ℕ → Option Descent
  | n, frames, [], prefixLength => some ⟨n, frames, [], prefixLength⟩
  | n, frames, byte :: pfx, prefixLength =>
    if 8 ≤ prefixLength then
      match n.getNextNode byte with
      | some node => descend node (⟨n, byte⟩ :: frames) pfx (prefixLength - 8)
      | none => none
    else some ⟨n, frames, byte :: pfx, prefixLength⟩

/-- The tree a node stands in, rebuilt along its frames. -/
def rebuild : Node → List Frame → Node
  | n, [] => n
  | n, f :: frames => rebuild (f.parent.setNextNode f.childId n) frames

/-- The release loop of `bf_lpm_trie_delete`: while both counters read
zero and there is a parent, unlink the node and count the loss there. -/
def release : Node → List Frame → Node
  | n, [] => n
  | n, f :: frames =>
    if n.prefNum = 0 ∧ n.branchNum = 0 then
      let p := f.parent.deleteBranch f.childId
      release { p with branchNum := p.branchNum - 1 } frames
    else rebuild n (f :: frames)

/-- The node after its prefix is removed and uncounted. -/
def Node.unstore (n : Node) (prefixKey : ℕ) : Node :=
  let n' := n.deletePrefix prefixKey
  { n' with prefNum := n'.prefNum - 1 }

/-- `bf_lpm_trie_delete`. Without `release_memory` the prefix is found and
left in place. -/
def Trie.delete (t : Trie) (pfx : List UInt8) (prefixLength : ℕ) : Trie × Bool :=
  match descend t.root [] pfx prefixLength with
  | none => (t, false)
  | some d =>
    let prefixKey := lastKey d.pfx d.prefixLength
    match d.node.getPrefixPtr prefixKey with
    | none => (t, false)
    | some _ =>
      if t.releaseMemory then
        ({ t with root := release (d.node.unstore prefixKey) d.frames }, true)
      else (t, true)

/-! ## Runs -/

/-- A call on the trie that changes it. -/
inductive Op where
  | insert (pfx : List UInt8) (prefixLength value : ℕ)
  | delete (pfx : List UInt8) (prefixLength : ℕ)

/-- The trie after a call. -/
def Trie.apply (t : Trie) : Op → Trie
  | .insert pfx prefixLength value => t.insert pfx prefixLength value
  | .delete pfx prefixLength => (t.delete pfx prefixLength).1

/-- The trie after a sequence of calls. -/
def Trie.run (t : Trie) (ops : List Op) : Trie := ops.foldl Trie.apply t

/-- A call on keys of the trie's width, with a prefix length within it. -/
def Op.Fits (w : ℕ) : Op → Prop
  | .insert pfx prefixLength _ => pfx.length = w ∧ prefixLength ≤ 8 * w
  | .delete pfx prefixLength => pfx.length = w ∧ prefixLength ≤ 8 * w

/-! ## What the counters stand for -/

/-- What a node holds: its branches and its prefixes. -/
def Node.items (n : Node) : Set (UInt8 ⊕ ℕ) :=
  {x | match x with
    | .inl byte => (n.branches byte).isSome
    | .inr key => (n.prefixes key).isSome}

/-- A node whose counters read one item in all holds at most one. The
counters are eight bits wide and an overwritten value `0` is counted
again, so a node may hold more than they say. -/
def Node.Counted (n : Node) : Prop :=
  n.prefNum.toNat + n.branchNum.toNat = 1 → n.items.Subsingleton

/-- The nodes below the root that a prefix leads through, its own
included. -/
def Trie.pathBelowRoot (t : Trie) (pfx : List UInt8) (prefixLength : ℕ) : List Node :=
  match descend t.root [] pfx prefixLength with
  | none => []
  | some d => (d.node :: d.frames.map Frame.parent).dropLast

/-- A call whose deletion, if it is one, passes only nodes that are
counted. -/
def Trie.Admits (t : Trie) : Op → Prop
  | .insert _ _ _ => True
  | .delete pfx prefixLength => ∀ n ∈ t.pathBelowRoot pfx prefixLength, n.Counted

/-- Every call of the run is admitted by the trie it is made on. -/
def Trie.AdmitsRun : Trie → List Op → Prop
  | _, [] => True
  | t, op :: ops => t.Admits op ∧ (t.apply op).AdmitsRun ops

end LpmTrie

end P4Bricks
