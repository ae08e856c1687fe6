/-
**The computed style that a host offers.**

For a node and a property, by its name in style sheets, the host may have a value. What is set last
counts.
-/

namespace PagedHtml

structure ComputedStyle where
  /-- The value of a property of a node, if the host has one. -/
  value? : (node : Nat) → (property : String) → Option String

namespace ComputedStyle

def empty : ComputedStyle := ⟨fun _ _ => none⟩

instance : Inhabited ComputedStyle := ⟨empty⟩

def set (computed : ComputedStyle) (node : Nat) (property value : String) : ComputedStyle :=
  ⟨fun n p => if n = node ∧ p = property then some value else computed.value? n p⟩

/-- The computed style of a list of values, the later of which win. -/
def ofList (entries : List (Nat × String × String)) : ComputedStyle :=
  entries.foldl (fun computed (node, property, value) => computed.set node property value) empty

end ComputedStyle

end PagedHtml
