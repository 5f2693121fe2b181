/-
# Text that is collected is joined

Nodes are joined if no text among them is empty and no two texts are neighbours
(`Joined`). `joinText` joins any nodes: it drops empty text and makes one of texts
that stand side by side. The parser never calls such a function. It merges while it
collects, at the newest end, and what it has collected is at every moment the joined
form of what was put in (`Content.Holds`), together with how deep that nests.

Key definitions: `Inline.Joined`, `Inline.joinText`, `Content.Holds`.
Key theorems: `Inline.joined_joinText`, `Inline.joinText_of_joined`,
`Inline.joinText_append_joinText`, `Content.Holds.pushText`, `Content.Holds.push`,
`Content.Holds.absorb`.
-/
import MarkdownHtml.Inline.Frame
import Mathlib

namespace MarkdownHtml
namespace Inline

/-! ### Joined nodes -/

/-- Whether the node is text. -/
def isText : Inline → Bool
  | .text _ => true
  | _ => false

/-- No text is empty, and no two texts are neighbours. -/
structure Joined (ns : List Inline) : Prop where
  filled : ∀ n ∈ ns, n ≠ .text ""
  apart : ns.IsChain fun a b => ¬ (a.isText = true ∧ b.isText = true)

/-- Puts text in front of nodes, as one with the text that is there. -/
def prependText (s : String) : List Inline → List Inline
  | .text t :: rest => .text (s ++ t) :: rest
  | rest => .text s :: rest

/-- Drops empty text and joins texts that are neighbours. -/
def joinText : List Inline → List Inline
  | [] => []
  | .text s :: rest => if s.isEmpty then joinText rest else prependText s (joinText rest)
  | n :: rest => n :: joinText rest

theorem joinText_cons_of_not_text {n : Inline} (h : n.isText = false) (ns : List Inline) :
    joinText (n :: ns) = n :: joinText ns := by
  cases n with
  | text s => exact absurd h (by simp [isText])
  | _ => rfl

theorem joinText_cons_empty (ns : List Inline) : joinText (.text "" :: ns) = joinText ns := by
  simp [joinText]

theorem joinText_cons_text {s : String} (h : s ≠ "") (ns : List Inline) :
    joinText (.text s :: ns) = prependText s (joinText ns) := by
  simp [joinText, h]

theorem joined_nil : Joined [] := ⟨by simp, .nil⟩

theorem Joined.tail {n : Inline} {ns : List Inline} (h : Joined (n :: ns)) : Joined ns :=
  ⟨fun m hm => h.filled m (List.mem_cons_of_mem _ hm), h.apart.tail⟩

theorem Joined.cons {n : Inline} {ns : List Inline} (h : Joined ns) (hn : n.isText = false) :
    Joined (n :: ns) := by
  refine ⟨fun m hm => ?_, List.isChain_cons.mpr ⟨fun m _ hm => ?_, h.apart⟩⟩
  · rcases List.mem_cons.mp hm with rfl | hm
    · rintro rfl
      exact absurd hn (by simp [isText])
    · exact h.filled m hm
  · exact absurd hm.1 (by simp [hn])

theorem Joined.prependText {s : String} {ns : List Inline} (h : Joined ns) (hs : s ≠ "") :
    Joined (prependText s ns) := by
  unfold Inline.prependText
  split
  · rename_i t rest
    refine ⟨fun m hm => ?_, List.isChain_cons.mpr ⟨fun m hm => ?_, h.apart.tail⟩⟩
    · rcases List.mem_cons.mp hm with rfl | hm
      · simp [hs]
      · exact h.filled m (List.mem_cons_of_mem _ hm)
    · exact (List.isChain_cons.mp h.apart).1 m hm
  · rename_i hnt
    refine ⟨fun m hm => ?_, List.isChain_cons.mpr ⟨fun m hm hb => ?_, h.apart⟩⟩
    · rcases List.mem_cons.mp hm with rfl | hm
      · simpa using hs
      · exact h.filled m hm
    · -- what follows is no text
      cases ns with
      | nil => exact absurd hm (by simp)
      | cons k rest =>
        obtain rfl : k = m := by simpa using hm
        cases k with
        | text t => exact hnt t rest rfl
        | _ => exact absurd hb.2 (by simp [isText])

/-- Joining leaves joined nodes. -/
theorem joined_joinText (ns : List Inline) : Joined (joinText ns) := by
  induction ns with
  | nil => exact joined_nil
  | cons n ns ih =>
    cases n with
    | text s =>
      by_cases hs : s = ""
      · subst hs
        rwa [joinText_cons_empty]
      · rw [joinText_cons_text hs]
        exact ih.prependText hs
    | _ => exact ih.cons rfl

/-- Joined nodes stay as they are. -/
theorem joinText_of_joined {ns : List Inline} (h : Joined ns) : joinText ns = ns := by
  induction ns with
  | nil => rfl
  | cons n ns ih =>
    have ihn := ih h.tail
    cases n with
    | text s =>
      have hs : s ≠ "" := fun he => h.filled (.text s) List.mem_cons_self (by rw [he])
      rw [joinText_cons_text hs, ihn]
      cases ns with
      | nil => rfl
      | cons m ns =>
        cases m with
        | text t =>
          have := (List.isChain_cons.mp h.apart).1 (.text t) (by simp)
          exact absurd ⟨rfl, rfl⟩ this
        | _ => rfl
    | _ => rw [joinText_cons_of_not_text rfl, ihn]

/-- What stands behind may be joined first. -/
theorem joinText_append_joinText (ms ns : List Inline) :
    joinText (ms ++ joinText ns) = joinText (ms ++ ns) := by
  induction ms with
  | nil => exact joinText_of_joined (joined_joinText ns)
  | cons m ms ih =>
    cases m with
    | text s => simp only [List.cons_append, joinText, ih]
    | _ => simp only [List.cons_append, joinText, ih]

theorem prependText_prependText (s t : String) (ns : List Inline) :
    prependText s (prependText t ns) = prependText (s ++ t) ns := by
  cases ns with
  | nil => rfl
  | cons n ns =>
    cases n with
    | text u => simp [prependText, String.append_assoc]
    | _ => rfl

/-- What stands in front may be joined first. -/
theorem joinText_joinText_append (ms ns : List Inline) :
    joinText (joinText ms ++ ns) = joinText (ms ++ ns) := by
  induction ms with
  | nil => rfl
  | cons m ms ih =>
    cases m with
    | text s =>
      by_cases hs : s = ""
      · subst hs
        rw [joinText_cons_empty, List.cons_append, joinText_cons_empty, ih]
      · rw [joinText_cons_text hs, List.cons_append, joinText_cons_text hs, ← ih]
        -- text in front of text is put together at once or one after the other
        cases hj : joinText ms with
        | nil => simp [prependText, joinText_cons_text hs]
        | cons k rest =>
          cases k with
          | text t =>
            have hst : s ++ t ≠ "" := fun h => hs (String.append_eq_empty_iff.mp h).1
            have ht : t ≠ "" := fun h =>
              (joined_joinText ms).filled (.text t) (by simp [hj]) (by rw [h])
            have hgrow : prependText s (.text t :: rest) = .text (s ++ t) :: rest := rfl
            rw [hgrow, List.cons_append, List.cons_append, joinText_cons_text hst,
              joinText_cons_text ht, prependText_prependText]
          | _ => simp [prependText, joinText_cons_text hs]
    | _ =>
      rw [joinText_cons_of_not_text rfl]
      simp only [List.cons_append]
      rw [joinText_cons_of_not_text rfl, joinText_cons_of_not_text rfl, ih]

/-! ### Nesting -/

theorem nesting_append (ms ns : List Inline) :
    nesting (ms ++ ns) = max (nesting ms) (nesting ns) := by
  induction ms with
  | nil => simp
  | cons m ms ih =>
    rw [List.cons_append, nesting_cons, nesting_cons, ih]
    omega

@[simp] theorem depth_text (s : String) : depth (.text s) = 0 := rfl

theorem nesting_prependText (s : String) (ns : List Inline) :
    nesting (prependText s ns) = nesting ns := by
  unfold prependText
  split <;> simp

/-- Joining does not change how deep nodes nest. -/
theorem nesting_joinText (ns : List Inline) : nesting (joinText ns) = nesting ns := by
  induction ns with
  | nil => rfl
  | cons n ns ih =>
    cases n with
    | text s =>
      by_cases hs : s = ""
      · subst hs
        simp [joinText_cons_empty, ih]
      · rw [joinText_cons_text hs, nesting_prependText, ih]
        simp
    | _ => rw [joinText_cons_of_not_text rfl, nesting_cons, nesting_cons, ih]

end Inline

/-! ### Collected nodes -/

namespace Content

/-- The content holds the nodes `ns`, joined, and knows how deep they nest. -/
structure Holds (c : Content) (ns : List Inline) : Prop where
  toList : c.toList = Inline.joinText ns
  depth : c.depth = Inline.nesting ns

theorem holds_empty : Holds {} [] := ⟨rfl, by simp⟩

theorem Holds.joined {c : Content} {ns : List Inline} (h : c.Holds ns) : Inline.Joined c.toList :=
  h.toList ▸ Inline.joined_joinText ns

/-- Text that the last node takes in. -/
theorem joined_grow {s t : String} {ns : List Inline} (h : Inline.Joined (ns ++ [.text t]))
    (hs : s ≠ "") : Inline.Joined (ns ++ [.text (t ++ s)]) := by
  refine ⟨fun n hn => ?_, ?_⟩
  · rcases List.mem_append.mp hn with hn | hn
    · exact h.filled n (List.mem_append_left _ hn)
    · obtain rfl := List.mem_singleton.mp hn
      simp [hs]
  · obtain ⟨h₁, -, h₂⟩ := List.isChain_append.mp h.apart
    refine List.isChain_append.mpr ⟨h₁, .singleton _, fun a ha b hb => ?_⟩
    obtain rfl : Inline.text (t ++ s) = b := by simpa using hb
    exact h₂ a ha (.text t) (by simp)

/-- Appending text joins it to what is there. -/
theorem toList_pushText {c : Content} (h : Inline.Joined c.toList) (s : String) :
    (c.pushText s).toList = Inline.joinText (c.toList ++ [.text s]) := by
  rw [← Inline.joinText_append_joinText]
  obtain ⟨nodes, depth⟩ := c
  unfold pushText
  split_ifs with he
  · obtain rfl := String.isEmpty_iff.mp he
    rw [Inline.joinText_cons_empty, Inline.joinText, List.append_nil, Inline.joinText_of_joined h]
  · have hs : s ≠ "" := fun hs => he (String.isEmpty_iff.mpr hs)
    rw [Inline.joinText_cons_text hs]
    split
    · rename_i t rest _ heq
      obtain ⟨rfl, rfl⟩ := Content.mk.inj heq
      simp only [toList, List.reverse_cons, List.append_assoc, Inline.joinText,
        Inline.prependText, List.cons_append, List.nil_append] at h ⊢
      have ht : t ≠ "" := fun ht => h.filled (.text t) (by simp) (by rw [ht])
      rw [← Inline.joinText_append_joinText, Inline.joinText_cons_text ht,
        Inline.joinText_cons_text hs]
      exact (Inline.joinText_of_joined (joined_grow h hs)).symm
    · rename_i hnt heq
      obtain ⟨rfl, rfl⟩ := Content.mk.inj heq
      simp only [toList, List.reverse_cons, Inline.joinText, Inline.prependText] at h ⊢
      refine (Inline.joinText_of_joined ⟨fun n hn => ?_, ?_⟩).symm
      · rcases List.mem_append.mp hn with hn | hn
        · exact h.filled n hn
        · obtain rfl := List.mem_singleton.mp hn
          simpa using hs
      · refine List.isChain_append.mpr ⟨h.apart, .singleton _, fun a ha b hb hab => ?_⟩
        rw [List.getLast?_reverse] at ha
        cases nodes with
        | nil => exact absurd ha (by simp)
        | cons k rest =>
          obtain rfl : k = a := by simpa using ha
          cases k with
          | text t => exact hnt t rest rfl
          | _ => exact absurd hab.1 (by simp [Inline.isText])

theorem depth_pushText (s : String) (c : Content) : (c.pushText s).depth = c.depth := by
  obtain ⟨nodes, depth⟩ := c
  unfold pushText
  split_ifs
  · rfl
  · split
    · rename_i heq
      exact (Content.mk.inj heq).2.symm
    · rename_i heq
      exact (Content.mk.inj heq).2.symm

namespace Holds

variable {c other : Content} {ns ms : List Inline}

theorem pushText (h : c.Holds ns) (s : String) : (c.pushText s).Holds (ns ++ [.text s]) where
  toList := by rw [toList_pushText h.joined, h.toList, Inline.joinText_joinText_append]
  depth := by
    rw [depth_pushText, h.depth, Inline.nesting_append]
    simp

theorem toList_push (h : c.Holds ns) {n : Inline} (hn : n.isText = false) :
    (⟨n :: c.nodes, c.depth⟩ : Content).toList = Inline.joinText (ns ++ [n]) := by
  have hj : Inline.Joined [n] := Inline.joined_nil.cons hn
  have hc := h.joined
  rw [← Inline.joinText_joinText_append, ← h.toList]
  simp only [Content.toList, List.reverse_cons] at hc ⊢
  refine (Inline.joinText_of_joined ⟨fun m hm => ?_, ?_⟩).symm
  · rcases List.mem_append.mp hm with hm | hm
    · exact hc.filled m hm
    · exact hj.filled m hm
  · refine List.isChain_append.mpr ⟨hc.apart, hj.apart, fun a _ b hb hab => ?_⟩
    obtain rfl : n = b := by simpa using hb
    exact absurd hab.2 (by simp [hn])

theorem push (h : c.Holds ns) {n : Inline} (hn : n.isText = false) :
    (c.push n (Inline.depth n)).Holds (ns ++ [n]) where
  toList := h.toList_push hn
  depth := by
    rw [Inline.nesting_append, ← h.depth]
    simp [Content.push]

/-- Nodes that are appended one by one, depth aside. -/
theorem toList_foldl_addNode {c : Content} (h : c.toList = Inline.joinText ns)
    (ms : List Inline) : (ms.foldl addNode c).toList = Inline.joinText (ns ++ ms) ∧
      (ms.foldl addNode c).depth = c.depth := by
  induction ms generalizing c ns with
  | nil => exact ⟨by simpa using h, rfl⟩
  | cons m ms ih =>
    have hj : Inline.Joined c.toList := h ▸ Inline.joined_joinText ns
    have hadd : (c.addNode m).toList = Inline.joinText (ns ++ [m]) ∧
        (c.addNode m).depth = c.depth := by
      cases m with
      | text s =>
        refine ⟨?_, depth_pushText s c⟩
        rw [addNode, toList_pushText hj, h, Inline.joinText_joinText_append]
      | _ =>
        refine ⟨?_, rfl⟩
        have hc : Holds ⟨c.nodes, Inline.nesting ns⟩ ns := ⟨h, rfl⟩
        exact hc.toList_push rfl
    obtain ⟨h₁, h₂⟩ := ih hadd.1
    exact ⟨by simpa using h₁, by rw [List.foldl_cons, h₂, hadd.2]⟩

/-- What is given up is taken in behind its opener. -/
theorem absorb (h : c.Holds ns) (ho : other.Holds ms) (s : String) :
    (Content.absorb s other c).Holds (ns ++ .text s :: ms) := by
  have hp := h.pushText s
  obtain ⟨hl, hd⟩ := toList_foldl_addNode hp.toList other.nodes.reverse
  refine ⟨?_, ?_⟩
  · change (other.nodes.reverse.foldl addNode (c.pushText s)).toList = _
    rw [hl, show other.nodes.reverse = Inline.joinText ms from ho.toList,
      Inline.joinText_append_joinText]
    simp
  · change max (other.nodes.reverse.foldl addNode (c.pushText s)).depth other.depth = _
    rw [hd, hp.depth, ho.depth, ← Inline.nesting_append]
    simp

end Holds
end Content
end MarkdownHtml
