/-
# Marks as a forest

A reader that knows nothing of documents takes the marks of a scan as a forest: elements
with the nodes they hold, elements without content, and characters. It keeps the elements
whose end has not come (`treeFrom`), and it reads every sequence of marks whose tags nest
(`exists_tree?`).

An element is told from all others by the number of elements that start before it
(`Spot`). Walking the forest gives every element with those around it and the marks of
what it holds (`elements`). The same list comes from one pass over the marks alone
(`openings`), in front of any rest, which is the form in which a writer's output can be
followed (`openings_marksAll`).

Key definitions: `Node`, `Node.marksAll`, `tree?`, `Spot`, `Element`, `elements`,
`openings`.
Key theorems: `exists_tree?`, `openings_marksAll`.
-/
import MarkdownHtml.Proofs.Markup

namespace MarkdownHtml
namespace Markup

/-! ### Nodes -/

/-- A node of the forest that marks describe. -/
inductive Node where
  | element (name : List Char) (attributes : List (List Char × List Char))
    (children : List Node)
  | void (name : List Char) (attributes : List (List Char × List Char))
  | char (c : Char)
deriving Repr

namespace Node

mutual

/-- The marks of a node. -/
def marks : Node → List Mark
  | .element name attributes children =>
    .start name attributes :: (marksAll children ++ [.stop name])
  | .void name attributes => [.void name attributes]
  | .char c => [.char c]

/-- The marks of the nodes. -/
def marksAll : List Node → List Mark
  | [] => []
  | n :: ns => marks n ++ marksAll ns

end

mutual

/-- How many elements start in a node, itself included. -/
def size : Node → Nat
  | .element _ _ children => sizeAll children + 1
  | _ => 0

/-- How many elements start in the nodes. -/
def sizeAll : List Node → Nat
  | [] => 0
  | n :: ns => size n + sizeAll ns

end

theorem marksAll_append (ns ms : List Node) :
    marksAll (ns ++ ms) = marksAll ns ++ marksAll ms := by
  induction ns with
  | nil => rfl
  | cons n ns ih => rw [List.cons_append, marksAll, marksAll, ih, List.append_assoc]

end Node

/-! ### Reading -/

/-- An element whose end has not come: its start tag, and the nodes before it in the
element around it, newest first. -/
structure Unclosed where
  name : List Char
  attributes : List (List Char × List Char)
  before : List Node

/-- Reads marks: `nodes`, newest first, stand in the innermost of the `unclosed` elements
already. -/
def treeFrom (unclosed : List Unclosed) (nodes : List Node) : List Mark → Option (List Node)
  | [] => if unclosed.isEmpty then some nodes.reverse else none
  | .start name attributes :: marks => treeFrom (⟨name, attributes, nodes⟩ :: unclosed) [] marks
  | .stop name :: marks =>
    match unclosed with
    | [] => none
    | innermost :: unclosed =>
      if innermost.name = name then
        treeFrom unclosed
          (.element name innermost.attributes nodes.reverse :: innermost.before) marks
      else none
  | .void name attributes :: marks => treeFrom unclosed (.void name attributes :: nodes) marks
  | .char c :: marks => treeFrom unclosed (.char c :: nodes) marks

/-- The forest of the marks, if their tags nest and are all closed. -/
def tree? (marks : List Mark) : Option (List Node) := treeFrom [] [] marks

/-- The marks that were read before a reader came to `unclosed` and `nodes`. -/
def readMarks : List Unclosed → List Node → List Mark
  | [], nodes => Node.marksAll nodes.reverse
  | innermost :: unclosed, nodes =>
    readMarks unclosed innermost.before ++
      .start innermost.name innermost.attributes :: Node.marksAll nodes.reverse

/-- One more node behind the others. -/
theorem readMarks_cons (unclosed : List Unclosed) (n : Node) (nodes : List Node) :
    readMarks unclosed (n :: nodes) = readMarks unclosed nodes ++ n.marks := by
  have hall : Node.marksAll (n :: nodes).reverse = Node.marksAll nodes.reverse ++ n.marks := by
    rw [List.reverse_cons, Node.marksAll_append]
    simp [Node.marksAll]
  cases unclosed with
  | nil => exact hall
  | cons innermost unclosed =>
    rw [readMarks, readMarks, hall]
    simp

/-- Marks that close the unclosed elements and all their own are read, and the forest has
the marks that it was read from. -/
theorem exists_treeFrom (marks : List Mark) (unclosed : List Unclosed) (nodes : List Node)
    (h : openAfter (unclosed.map Unclosed.name) marks = some []) :
    ∃ forest, treeFrom unclosed nodes marks = some forest ∧
      Node.marksAll forest = readMarks unclosed nodes ++ marks := by
  induction marks generalizing unclosed nodes with
  | nil =>
    cases unclosed with
    | nil => exact ⟨nodes.reverse, rfl, (List.append_nil _).symm⟩
    | cons innermost unclosed => simp [openAfter] at h
  | cons m marks ih =>
    cases m with
    | start name attributes =>
      obtain ⟨forest, hread, hmarks⟩ := ih (⟨name, attributes, nodes⟩ :: unclosed) [] h
      refine ⟨forest, hread, ?_⟩
      rw [hmarks]
      simp [readMarks, Node.marksAll]
    | stop name =>
      cases unclosed with
      | nil => simp [openAfter] at h
      | cons innermost unclosed =>
        simp only [List.map_cons, openAfter] at h
        split_ifs at h with hname
        subst hname
        obtain ⟨forest, hread, hmarks⟩ := ih unclosed
          (.element innermost.name innermost.attributes nodes.reverse :: innermost.before) h
        refine ⟨forest, ?_, ?_⟩
        · simpa [treeFrom] using hread
        · rw [hmarks, readMarks_cons, readMarks, Node.marks]
          simp
    | void name attributes =>
      obtain ⟨forest, hread, hmarks⟩ := ih unclosed (.void name attributes :: nodes) h
      refine ⟨forest, hread, ?_⟩
      rw [hmarks, readMarks_cons, Node.marks, List.append_assoc]
      rfl
    | char c =>
      obtain ⟨forest, hread, hmarks⟩ := ih unclosed (.char c :: nodes) h
      refine ⟨forest, hread, ?_⟩
      rw [hmarks, readMarks_cons, Node.marks, List.append_assoc]
      rfl

/-- **Marks whose tags nest are those of a forest, and it is read from them.** -/
theorem exists_tree? {marks : List Mark} (h : openAfter [] marks = some []) :
    ∃ forest, tree? marks = some forest ∧ Node.marksAll forest = marks :=
  exists_treeFrom marks [] [] h

/-! ### Elements and what is around them -/

/-- An element's place: how many elements start before it, and its start tag. -/
structure Spot where
  number : Nat
  name : List Char
  attributes : List (List Char × List Char)
deriving Repr, DecidableEq

namespace Spot

/-- Whether this is the item of a list. -/
def isItem (s : Spot) : Bool := s.name == "li".toList

/-- Whether this is a list. -/
def isList (s : Spot) : Bool := s.name == "ul".toList || s.name == "ol".toList

end Spot

/-- An element with those it lies inside, innermost first, and the marks of the nodes that
it holds. -/
structure Element where
  self : Spot
  around : List Spot
  content : List Mark
deriving Repr, DecidableEq

namespace Element

/-- The element that holds this one. -/
def parent (e : Element) : Option Spot := e.around.head?

end Element

mutual

/-- The elements of a node in the order they start, where `number` start before it. -/
def Node.elements (around : List Spot) (number : Nat) : Node → List Element
  | .element name attributes children =>
    ⟨⟨number, name, attributes⟩, around, Node.marksAll children⟩ ::
      Node.elementsAll (⟨number, name, attributes⟩ :: around) (number + 1) children
  | _ => []

/-- The elements of the nodes. -/
def Node.elementsAll (around : List Spot) (number : Nat) : List Node → List Element
  | [] => []
  | n :: ns => Node.elements around number n ++ Node.elementsAll around (number + n.size) ns

end

/-- The elements of a forest in the order they start. -/
def elements (forest : List Node) : List Element := Node.elementsAll [] 0 forest

/-! ### The same from the marks alone -/

/-- The marks up to the end of an element, where `depth` more are open inside it. -/
def inside : Nat → List Mark → List Mark
  | _, [] => []
  | depth, .start name attributes :: marks => .start name attributes :: inside (depth + 1) marks
  | 0, .stop _ :: _ => []
  | depth + 1, .stop name :: marks => .stop name :: inside depth marks
  | depth, m :: marks => m :: inside depth marks

/-- The elements that start in the marks, where `around` are open before them and `number`
have started. -/
def openings (around : List Spot) (number : Nat) : List Mark → List Element
  | [] => []
  | .start name attributes :: marks =>
    ⟨⟨number, name, attributes⟩, around, inside 0 marks⟩ ::
      openings (⟨number, name, attributes⟩ :: around) (number + 1) marks
  | .stop _ :: marks => openings around.tail number marks
  | _ :: marks => openings around number marks

@[simp] theorem inside_char (depth : Nat) (c : Char) (marks : List Mark) :
    inside depth (.char c :: marks) = .char c :: inside depth marks := by
  cases depth <;> rfl

@[simp] theorem inside_void (depth : Nat) (name : List Char)
    (attributes : List (List Char × List Char)) (marks : List Mark) :
    inside depth (.void name attributes :: marks) =
      .void name attributes :: inside depth marks := by
  cases depth <;> rfl

mutual

/-- A whole node is inside whatever it stands in. -/
theorem inside_marks (depth : Nat) (rest : List Mark) :
    ∀ n : Node, inside depth (n.marks ++ rest) = n.marks ++ inside depth rest
  | .element name attributes children => by
    have hchildren := inside_marksAll (depth + 1) (.stop name :: rest) children
    simp only [Node.marks, List.cons_append, List.append_assoc, List.nil_append, inside,
      hchildren]
  | .void name attributes => inside_void depth name attributes rest
  | .char c => inside_char depth c rest

theorem inside_marksAll (depth : Nat) (rest : List Mark) :
    ∀ ns : List Node,
      inside depth (Node.marksAll ns ++ rest) = Node.marksAll ns ++ inside depth rest
  | [] => rfl
  | n :: ns => by
    rw [Node.marksAll, List.append_assoc, inside_marks depth _ n, inside_marksAll depth rest ns,
      List.append_assoc]

end

mutual

theorem openings_marks (rest : List Mark) :
    ∀ (n : Node) (around : List Spot) (number : Nat),
      openings around number (n.marks ++ rest) =
        n.elements around number ++ openings around (number + n.size) rest
  | .element name attributes children, around, number => by
    have hinside := inside_marksAll 0 (.stop name :: rest) children
    have hchildren := openings_marksAll (.stop name :: rest) children
      (⟨number, name, attributes⟩ :: around) (number + 1)
    simp only [inside, List.append_nil] at hinside
    simp only [openings, List.tail_cons] at hchildren
    simp only [Node.marks, Node.elements, Node.size, List.cons_append, List.append_assoc,
      List.nil_append, openings, hinside, hchildren]
    rw [Nat.add_right_comm, Nat.add_assoc]
  | .void _ _, _, _ => rfl
  | .char _, _, _ => rfl

/-- **One pass over the marks finds the elements of the forest**, each with what is around it
and inside it, and goes on behind the forest as if it were not there. -/
theorem openings_marksAll (rest : List Mark) :
    ∀ (ns : List Node) (around : List Spot) (number : Nat),
      openings around number (Node.marksAll ns ++ rest) =
        Node.elementsAll around number ns ++ openings around (number + Node.sizeAll ns) rest
  | [], _, _ => rfl
  | n :: ns, around, number => by
    rw [Node.marksAll, List.append_assoc, openings_marks _ n, openings_marksAll rest ns,
      Node.elementsAll, Node.sizeAll, List.append_assoc, Nat.add_assoc]

end

/-- The elements of a forest are those that start in its marks. -/
theorem elements_eq_openings (forest : List Node) :
    elements forest = openings [] 0 (Node.marksAll forest) := by
  have h := openings_marksAll [] forest [] 0
  simp only [List.append_nil, openings] at h
  exact h.symm

end Markup
end MarkdownHtml
