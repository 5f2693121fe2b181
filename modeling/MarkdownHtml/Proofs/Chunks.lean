/-
# Chunks are written one by one

A writer may be handed the blocks of a document in several chunks. Lists are closed at the end
of each, and a chunk adds to the output just what it is as a document of its own
(`Html.write_chunk`), whatever was written before. So chunks one behind the other are their
documents one behind the other (`Document.chunksToHtml_eq`). A document can be cut in two with
the same result, unless the cut goes through a run of items: there a list would be closed and
opened again.

Key theorems: `Html.write_append`, `Html.write_chunk`, `Document.chunksToHtml_eq`,
`Document.toHtml_composes`.
-/
import MarkdownHtml.Proofs.ItemRuns

namespace MarkdownHtml

open Render

namespace Html

theorem write_append (ps qs : List Piece) : write (ps ++ qs) = write ps ++ write qs := by
  apply String.toList_inj.mp
  rw [String.toList_append, toList_write, toList_write, toList_write, List.flatMap_append]

/-- A chunk adds what it is as a document. -/
theorem write_chunk (options : RenderOptions) (out : List Piece) (doc : Document) :
    write (chunk options out doc).reverse = write out.reverse ++ doc.toHtml options := by
  rw [chunk_eq_append, List.reverse_append, write_append]
  rfl

end Html

namespace Document

/-- Chunks behind any output. -/
theorem write_chunks (options : RenderOptions) (out : List Html.Piece) (chunks : List Document) :
    Html.write (chunks.foldl (chunk options) out).reverse =
      Html.write out.reverse ++ String.join (chunks.map fun doc => doc.toHtml options) := by
  induction chunks generalizing out with
  | nil =>
    rw [List.foldl_nil, List.map_nil, String.join_nil, String.append_empty]
  | cons doc chunks ih =>
    rw [List.foldl_cons, ih, Html.write_chunk, List.map_cons, String.join_cons,
      String.append_assoc]

theorem chunksToHtml_eq (options : RenderOptions) (chunks : List Document) :
    chunksToHtml chunks options = String.join (chunks.map fun doc => doc.toHtml options) := by
  have hall := write_chunks options [] chunks
  rw [List.reverse_nil, show Html.write [] = "" from rfl, String.empty_append] at hall
  exact hall

/-- A cut that goes through no run of items. -/
theorem toHtml_append (options : RenderOptions) {front back : Document}
    (h : (∀ b ∈ front.getLast?, b.isItem = false) ∨ (∀ b ∈ back.head?, b.isItem = false)) :
    toHtml (front ++ back) options = front.toHtml options ++ back.toHtml options := by
  have hchunk := Html.write_chunk options (chunk options [] front) back
  rw [← chunk_append options [] h] at hchunk
  exact hchunk

/-- **Rendering composes.** Behind any output a chunk adds what it is as a document, so chunks
are their documents one behind the other, and a document is its two parts one behind the other
if the first does not end with an item or the second does not start with one. -/
theorem toHtml_composes (options : RenderOptions) :
    (∀ (out : List Html.Piece) (doc : Document),
      Html.write (chunk options out doc).reverse =
        Html.write out.reverse ++ doc.toHtml options) ∧
    (∀ chunks : List Document,
      chunksToHtml chunks options = String.join (chunks.map fun doc => doc.toHtml options)) ∧
    ∀ front back : Document,
      ((∀ b ∈ front.getLast?, b.isItem = false) ∨ (∀ b ∈ back.head?, b.isItem = false)) →
        toHtml (front ++ back) options = front.toHtml options ++ back.toHtml options :=
  ⟨Html.write_chunk options, chunksToHtml_eq options, fun _ _ h => toHtml_append options h⟩

/-- An item with a gap in its depth behind a quote that ends with another item: the list in the
quote is closed, and the cut goes through no run of items. -/
theorem toHtml_composes_gap :
    (∀ b ∈ [Block.quote [.item (.bullet '-') 0 []]].getLast?, b.isItem = false) ∧
      toHtml ([.quote [.item (.bullet '-') 0 []]] ++ [.item (.ordered 3 '.') 1 [.text "a"]]) {} =
        "<blockquote>\n<ul>\n<li></li>\n</ul>\n</blockquote>\n" ++
          "<ol start=\"3\">\n<li>\n<ol start=\"3\">\n<li>a</li>\n</ol>\n</li>\n</ol>\n" := by
  have hquote : ∀ b ∈ [Block.quote [.item (.bullet '-') 0 []]].getLast?, b.isItem = false := by
    rintro b ⟨⟩
    rfl
  refine ⟨hquote, ?_⟩
  rw [(toHtml_composes {}).2.2 _ _ (.inl hquote)]
  rfl

end Document
end MarkdownHtml
