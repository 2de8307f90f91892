import ImportMigration.Machine.Basic

/-!
A disk as a value: what stands at each place. A place is the list of names that leads to it from the
top directory. Only the owner's permissions are kept.

`Disk.node?` looks a place up; `node?_put` and `node?_remove` say what the changes do to it.
-/

namespace ImportMigration

structure Access where
  read : Bool
  write : Bool
  execute : Bool
  deriving DecidableEq, Repr

inductive Node where
  | file (access : Access) (content : Bytes)
  | directory (access : Access)
  | link (target : Path)
  /-- A device that is empty when read and forgets what is written. -/
  | sink
  deriving DecidableEq, Repr

def Node.kind : Node → Kind
  | file _ _ => .file
  | directory _ => .directory
  | link _ => .link
  | sink => .other

abbrev Place := List FileName

structure Disk where
  nodes : List (Place × Node)
  nodup : (nodes.map Prod.fst).Nodup

namespace Disk

/-- A disk with nothing but its top directory. -/
def empty : Disk where
  nodes := [([], .directory ⟨true, true, true⟩)]
  nodup := by simp

def node? (d : Disk) (p : Place) : Option Node :=
  d.nodes.lookup p

/-- The disk with another node at a place. -/
def put (d : Disk) (p : Place) (n : Node) : Disk where
  nodes := (p, n) :: d.nodes.filter (·.1 != p)
  nodup := by
    rw [List.map_cons, List.nodup_cons]
    refine ⟨by simp, d.nodup.sublist ?_⟩
    exact List.filter_sublist.map _

/-- The disk without a place and all that lies below it. -/
def remove (d : Disk) (p : Place) : Disk where
  nodes := d.nodes.filter (!p.isPrefixOf ·.1)
  nodup := d.nodup.sublist (List.filter_sublist.map _)

/-- The entries of the directory at a place. -/
def entries (d : Disk) (p : Place) : List Entry :=
  d.nodes.filterMap fun (q, n) =>
    match q.getLast? with
    | some name => if q.dropLast = p then some ⟨name, n.kind⟩ else none
    | none => none

theorem lookup_filter (keep : Place → Bool) (p : Place) (nodes : List (Place × Node)) :
    (nodes.filter (keep ·.1)).lookup p = if keep p then nodes.lookup p else none := by
  induction nodes with
  | nil => simp
  | cons x nodes ih =>
    obtain ⟨q, n⟩ := x
    by_cases hq : p = q
    · subst hq
      by_cases hk : keep p
      · simp [hk]
      · simpa [List.filter_cons, hk] using ih
    · have hb : (p == q) = false := by simpa using hq
      by_cases hk : keep q
      · simpa [List.filter_cons, hk, List.lookup_cons, hb] using ih
      · simpa [List.filter_cons, hk, List.lookup_cons, hb] using ih

theorem node?_put (d : Disk) (p q : Place) (n : Node) :
    (d.put p n).node? q = if q = p then some n else d.node? q := by
  by_cases h : q = p
  · simp [node?, put, h]
  · have hb : (q == p) = false := by simpa using h
    simpa [node?, put, List.lookup_cons, hb, h] using lookup_filter (· != p) q d.nodes

theorem node?_remove (d : Disk) (p q : Place) :
    (d.remove p).node? q = if p.isPrefixOf q then none else d.node? q := by
  rw [node?, remove, lookup_filter (!p.isPrefixOf ·), node?]
  cases p.isPrefixOf q <;> rfl

end Disk

end ImportMigration
