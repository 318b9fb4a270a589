import TildeMarkup.Html.Page
import TildeMarkup.Proofs.Html.Entities

/-!
# What a page tells

The settings of a page stand in it as escaped text, the title in front of the next tag and all others
between quotes. So they add nothing to the tags of the page, and what is read up to the `<` or the quote
gives the setting back: a page tells its settings and the fragment in it (`page_tells`). A page without
a language is one with the empty language.
-/

namespace TildeMarkup.Html

open Utf8

/-! ## The tags of some HTML -/

namespace Tags

/-- The tags that are written in some bytes, in order and without their quoted values, and the place
behind them. Any tag will do, and none has to be closed. -/
def written : Place → Bytes → List Bytes × Place
  | place, [] => ([], place)
  | .outside, b :: rest => written (if b = opener then .inside [] else .outside) rest
  | .inside seen, b :: rest =>
    if b = closer then (seen :: (written .outside rest).1, (written .outside rest).2)
    else written (if b = quote then .value seen else .inside (seen ++ [b])) rest
  | .value seen, b :: rest => written (if b = quote then .inside seen else .value seen) rest

/-- Tags go on over a seam: the second part is read from the place where the first has ended. -/
theorem written_append (place : Place) (front back : Bytes) : written place (front ++ back)
    = ((written place front).1 ++ (written (written place front).2 back).1,
      (written (written place front).2 back).2) := by
  induction front generalizing place with
  | nil => rfl
  | cons b rest ih =>
    cases place with
    | inside seen =>
      rw [List.cons_append, written, written, ih, ih]
      split <;> rfl
    | _ => rw [List.cons_append, written, written, ih]

/-- What holds no `<` is no part of a tag. -/
theorem written_outside {bytes : Bytes} (h : opener ∉ bytes) :
    written .outside bytes = ([], .outside) := by
  induction bytes with
  | nil => rfl
  | cons b rest ih =>
    rw [List.mem_cons, not_or] at h
    rw [written, if_neg (Ne.symm h.1), ih h.2]

/-- A quoted value goes up to the quote. -/
theorem written_value {bytes : Bytes} (h : quote ∉ bytes) (seen : Bytes) :
    written (.value seen) bytes = ([], .value seen) := by
  induction bytes with
  | nil => rfl
  | cons b rest ih =>
    rw [List.mem_cons, not_or] at h
    rw [written, if_neg (Ne.symm h.1), ih h.2]

end Tags

namespace PageHead

/-! ## The bytes of a page -/

/-- The language as far as a page shows it. -/
def shownLanguage (head : PageHead) : String :=
  head.language.getD ""

/-- The lines of some style sheets. -/
def linkLines (targets : List String) : Bytes :=
  targets.flatMap fun target => encode (styleSheetLink target)

theorem encode_join (texts : List String) : encode (String.join texts) = texts.flatMap encode := by
  induction texts with
  | nil => rfl
  | cons text rest ih => rw [String.join_cons, encode_append, ih, List.flatMap_cons]

/-- The bytes of a page in front of its fragment, with the settings between what is always there. -/
theorem encode_toText (head : PageHead) :
    encode head.toText = encode "<!DOCTYPE html>\n" ++ (encode head.htmlTag
      ++ (encode "<head>\n<meta charset=\"utf-8\">\n<title>" ++ (encode (escape head.title)
        ++ (encode "</title>\n" ++ (linkLines head.styleSheets
          ++ encode "</head>\n<body>\n<main>\n"))))) := by
  have hlines : encode (String.join (head.styleSheets.map styleSheetLink))
      = linkLines head.styleSheets := by
    rw [encode_join, List.flatMap_map, linkLines]
  delta toText
  simp only [encode_append, hlines, List.append_assoc]

/-- The tag of the page up to where it tells whether there is a language, and what is behind that. -/
theorem encode_htmlTag (head : PageHead) : encode head.htmlTag = encode "<html"
    ++ if head.shownLanguage = "" then encode ">\n"
      else encode " lang=\"" ++ (encode (escape head.shownLanguage) ++ encode "\">\n") := by
  have htag : head.htmlTag = if head.shownLanguage = "" then "<html>\n"
      else "<html lang=\"" ++ escape head.shownLanguage ++ "\">\n" := by
    rw [htmlTag, shownLanguage]
    cases head.language with
    | none => rfl
    | some language => simp only [Option.getD_some, String.isEmpty_iff]
  have hopen : encode "<html lang=\"" = encode "<html" ++ encode " lang=\"" := rfl
  rw [htag]
  split
  · rfl
  · rw [encode_append, encode_append, hopen, List.append_assoc, List.append_assoc]

theorem encode_styleSheetLink (target : String) : encode (styleSheetLink target)
    = encode "<link rel=\"stylesheet\" href=\"" ++ (encode (escape target) ++ encode "\">\n") := by
  delta styleSheetLink
  rw [encode_append, encode_append, List.append_assoc]

/-! ## The tags of a page -/

open Tags

/-- The tags in front of the fragment. Of the settings they show whether there is a language, and how
many style sheets there are. -/
def tags (head : PageHead) : List Bytes :=
  ["!DOCTYPE html", if head.shownLanguage = "" then "html" else "html lang=",
      "head", "meta charset=", "title", "/title"].map encode
    ++ (List.replicate head.styleSheets.length (encode "link rel= href=")
      ++ ["/head", "body", "main"].map encode)

/-- The tag of the page shows whether there is a language, and not which. -/
theorem written_htmlTag (head : PageHead) : written .outside (encode head.htmlTag)
    = ([encode (if head.shownLanguage = "" then "html" else "html lang=")], .outside) := by
  have hplain : written (.inside (encode "html")) (encode ">\n") = ([encode "html"], .outside) := by
    decide +kernel
  have hopen : written .outside (encode "<html") = ([], .inside (encode "html")) := by decide +kernel
  have hname : written (.inside (encode "html")) (encode " lang=\"")
      = ([], .value (encode "html lang=")) := by decide +kernel
  have hclose : written (.value (encode "html lang=")) (encode "\">\n")
      = ([encode "html lang="], .outside) := by decide +kernel
  have hvalue := written_value (not_mem_encode_escape (.inr rfl) head.shownLanguage)
    (encode "html lang=")
  rw [encode_htmlTag, written_append, hopen]
  split
  · rw [hplain]
    rfl
  · rw [written_append, hname, written_append, hvalue, hclose]
    rfl

/-- Each style sheet is one tag, whatever its target. -/
theorem written_linkLines (targets : List String) : written .outside (linkLines targets)
    = (List.replicate targets.length (encode "link rel= href="), .outside) := by
  have hopen : written .outside (encode "<link rel=\"stylesheet\" href=\"")
      = ([], .value (encode "link rel= href=")) := by decide +kernel
  have hclose : written (.value (encode "link rel= href=")) (encode "\">\n")
      = ([encode "link rel= href="], .outside) := by decide +kernel
  induction targets with
  | nil => rfl
  | cons target others ih =>
    have hvalue := written_value (not_mem_encode_escape (.inr rfl) target) (encode "link rel= href=")
    rw [linkLines, List.flatMap_cons, ← linkLines, encode_styleSheetLink, written_append, written_append,
      hopen, written_append, hvalue, hclose, ih]
    rfl

/-- All tags in front of the fragment are those of the page. -/
theorem written_toText (head : PageHead) :
    written .outside (encode head.toText) = (head.tags, .outside) := by
  have htype : written .outside (encode "<!DOCTYPE html>\n") = ([encode "!DOCTYPE html"], .outside) := by
    decide +kernel
  have hopen : written .outside (encode "<head>\n<meta charset=\"utf-8\">\n<title>")
      = (["head", "meta charset=", "title"].map encode, .outside) := by decide +kernel
  have htitle : written .outside (encode "</title>\n") = ([encode "/title"], .outside) := by
    decide +kernel
  have hclose : written .outside (encode "</head>\n<body>\n<main>\n")
      = (["/head", "body", "main"].map encode, .outside) := by decide +kernel
  simp only [encode_toText, written_append, htype, written_htmlTag, hopen, htitle, hclose,
    written_linkLines, written_outside (not_mem_encode_escape (.inl rfl) head.title)]
  rfl

/-! ## Reading the settings back -/

/-- The tag of the page tells the language. -/
theorem eq_of_htmlTag {head other : PageHead} {back more : Bytes}
    (h : encode head.htmlTag ++ back = encode other.htmlTag ++ more) :
    head.shownLanguage = other.shownLanguage ∧ back = more := by
  have hplain : encode ">\n" = closer :: encode "\n" := rfl
  have hname : encode " lang=\"" = space :: encode "lang=\"" := rfl
  have hquote : encode "\">\n" = quote :: encode ">\n" := rfl
  rw [encode_htmlTag, encode_htmlTag, List.append_assoc, List.append_assoc,
    List.append_cancel_left_eq] at h
  -- With a language the tag goes on with a space, and without one it is closed.
  split at h <;> split at h
  · next hnone hother =>
    rw [List.append_cancel_left_eq] at h
    exact ⟨hnone.trans hother.symm, h⟩
  · rw [hplain, hname] at h
    exact absurd (List.cons.inj h).1 (by decide)
  · rw [hplain, hname] at h
    exact absurd (List.cons.inj h).1 (by decide)
  · rw [hquote] at h
    simp only [List.append_assoc, List.cons_append, List.append_cancel_left_eq] at h
    obtain ⟨hlanguage, hrest⟩ := eq_of_encode_escape (.inr rfl) h
    rw [List.append_cancel_left_eq] at hrest
    exact ⟨hlanguage, hrest⟩

/-- The lines of the style sheets tell their targets, and where they end. -/
theorem eq_of_linkLines {targets others : List String} {back more : Bytes}
    (h : linkLines targets ++ (encode "</head>\n<body>\n<main>\n" ++ back)
      = linkLines others ++ (encode "</head>\n<body>\n<main>\n" ++ more)) :
    targets = others ∧ back = more := by
  have hlink : encode "<link rel=\"stylesheet\" href=\""
      = opener :: 0x6c :: encode "ink rel=\"stylesheet\" href=\"" := rfl
  have hend : encode "</head>\n<body>\n<main>\n" = opener :: slash :: encode "head>\n<body>\n<main>\n" :=
    rfl
  have hquote : encode "\">\n" = quote :: encode ">\n" := rfl
  have hcons (target : String) (rest : List String) : linkLines (target :: rest)
      = encode "<link rel=\"stylesheet\" href=\"" ++ (encode (escape target)
        ++ (encode "\">\n" ++ linkLines rest)) := by
    rw [linkLines, List.flatMap_cons, ← linkLines, encode_styleSheetLink, List.append_assoc,
      List.append_assoc]
  induction targets generalizing others with
  | nil =>
    cases others with
    | nil => exact ⟨rfl, List.append_cancel_left h⟩
    | cons other rest =>
      -- the second byte of a line is not that of the end tag
      rw [hcons, hlink, hend] at h
      exact absurd (List.cons.inj (List.cons.inj h).2).1 (by decide)
  | cons target rest ih =>
    cases others with
    | nil =>
      rw [hcons, hlink, hend] at h
      exact absurd (List.cons.inj (List.cons.inj h).2).1 (by decide)
    | cons other others =>
      rw [hcons, hcons, hquote] at h
      simp only [List.append_assoc, List.cons_append, List.append_cancel_left_eq] at h
      obtain ⟨rfl, hrest⟩ := eq_of_encode_escape (.inr rfl) h
      obtain ⟨rfl, hback⟩ := ih (List.append_cancel_left hrest)
      exact ⟨rfl, hback⟩

/-- What is in front of the fragment tells the settings, and where it ends. -/
theorem eq_of_toText {head other : PageHead} {back more : Bytes}
    (h : encode head.toText ++ back = encode other.toText ++ more) :
    head.shownLanguage = other.shownLanguage ∧ head.title = other.title
      ∧ head.styleSheets = other.styleSheets ∧ back = more := by
  have htitle : encode "</title>\n" = opener :: encode "/title>\n" := rfl
  simp only [encode_toText, List.append_assoc, List.append_cancel_left_eq] at h
  obtain ⟨hlanguage, h⟩ := eq_of_htmlTag h
  rw [List.append_cancel_left_eq, htitle] at h
  obtain ⟨hsame, h⟩ := eq_of_encode_escape (.inl rfl) h
  obtain ⟨hsheets, hback⟩ := eq_of_linkLines (List.append_cancel_left h)
  exact ⟨hlanguage, hsame, hsheets, hback⟩

end PageHead

/-- Settings add no tags to a page, but for the attribute of the language and one link for each style
sheet: the tags are those of the page itself, then those of the fragment. Two pages are the same exactly
if they have the same fragment, title and style sheets, and the same language, of which none is as good
as the empty one. -/
theorem page_tells (head : PageHead) (fragment : Bytes) :
    (Tags.written .outside (page head fragment)).1
      = head.tags ++ (Tags.written .outside (fragment ++ encode "\n</main>\n</body>\n</html>\n")).1
    ∧ ∀ (other : PageHead) (content : Bytes), page head fragment = page other content ↔
      fragment = content ∧ head.title = other.title
        ∧ head.language.getD "" = other.language.getD "" ∧ head.styleSheets = other.styleSheets := by
  refine ⟨?_, fun other content => ⟨fun h => ?_, ?_⟩⟩
  · rw [page, Tags.written_append, PageHead.written_toText]
  · obtain ⟨hlanguage, htitle, hsheets, hback⟩ := PageHead.eq_of_toText h
    exact ⟨List.append_cancel_right hback, htitle, hlanguage, hsheets⟩
  · rintro ⟨rfl, htitle, hlanguage, hsheets⟩
    have htag : encode head.htmlTag = encode other.htmlTag := by
      rw [PageHead.encode_htmlTag, PageHead.encode_htmlTag, PageHead.shownLanguage,
        PageHead.shownLanguage, hlanguage]
    rw [page, page, PageHead.encode_toText, PageHead.encode_toText, htag, htitle, hsheets]

end TildeMarkup.Html
