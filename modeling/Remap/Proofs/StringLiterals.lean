import Remap.Proofs.Parser.Reads.Programs
import Remap.Proofs.Parser.Reads.Strings

/-!
# Strings are read as they were written

Any list of texts and templates can be written as one string literal: texts with the characters escaped that would not stand for
themselves, templates between double braces. The literal is scanned and parsed without complaint, and its parts are the list.
-/

namespace Remap

/-- Texts are not empty, templates hold names, and no text comes right after another. -/
structure StringPart.ProperRow (parts : List StringPart) : Prop where
  proper : ∀ p ∈ parts, p.isProper = true
  apart : parts.IsChain StringPart.Apart

open StringPart (quoted)

/-- A string that is written out comes back. Nothing is reported, and the one statement of the program is a string literal that has
both its quotes and the parts that were written. -/
theorem parse_quoted (o : Options) (parts : List StringPart) (hparts : StringPart.ProperRow parts) (hfuel : o.fuel = none)
    (hlimit : 2 ≤ o.limit) : ∃ p n, parse o (quoted parts) = .ok p ∧ p.diagnostics = [] ∧ p.statements = [n] ∧
      n.expr? = some (.literal (.string parts true)) := by
  have hscan := Fragment.scan_written (StringPart.written_fragments hparts.proper) o.checkPatterns
  rw [← StringPart.quoted_eq] at hscan
  have hpieces := StringPart.pieces_piecesOf (parts.flatMap StringPart.fragments)
  rw [StringPart.partsOf_fragments hparts.proper hparts.apart] at hpieces
  have hends : Parser.EndsSolid (Fragment.stringPieces (parts.flatMap StringPart.fragments)) :=
    .append_right (_ :: _) (List.cons_ne_nil _ _) (.single (by decide))
  have hterm (l : Nat) (s : Parser.State)
      (hs : s.Before 0 false (Fragment.stringPieces (parts.flatMap StringPart.fragments)) []) :
      Parser.Reads l Parser.literal s 0 []
        (Parser.YieldsTree .stringLit (fun t => ∃ cs, t = .node .stringLit cs ∧ Tree.SpellsString cs parts) []) := by
    refine .peek hs.faces (Parser.sharp_cons (by decide) _ _) fun t ht => ?_
    exact (Parser.reads_string hpieces ht).imp fun k r' ⟨hk, cs, hcs, hr'⟩ => ⟨hk, _, ⟨cs, rfl, hcs⟩, hr'⟩
  obtain ⟨p, ⟨start, tree⟩, hparse, hdiagnostics, hstatements, cs, rfl, hcs⟩ :=
    parse_term hscan.1 hscan.2 hfuel hlimit rfl (show Kind.doubleQuote ≠ .bang by decide) hends (by decide)
      (fun t ⟨_, ht, _⟩ => ht ▸ rfl) hterm
  exact ⟨p, _, hparse, hdiagnostics, hstatements, Node.expr?_of_spellsString hcs start⟩

/-- Quotes, backslashes, braces and newlines next to templates, one of them named like a keyword. -/
theorem parse_quoted_mixed :
    ∃ p n, parse {} ['"', 'é', '\\', '\x7b', '\x7b', '\x7b', ' ', 'a', '1', ' ', '\x7d', '\x7d', '\x7b', '\x7b', ' ', 'i', 'f', ' ',
        '\x7d', '\x7d', '\x7d', '\\', 'n', '\\', '"', '\\', '\\', '"'] = .ok p ∧
      p.diagnostics = [] ∧ p.statements = [n] ∧
      n.expr? = some (.literal (.string
        [.text ['é', '\x7b'], .template ['a', '1'], .template ['i', 'f'], .text ['\x7d', '\n', '"', '\\']] true)) := by
  have htext : quoted [.text ['é', '\x7b'], .template ['a', '1'], .template ['i', 'f'], .text ['\x7d', '\n', '"', '\\']] =
      ['"', 'é', '\\', '\x7b', '\x7b', '\x7b', ' ', 'a', '1', ' ', '\x7d', '\x7d', '\x7b', '\x7b', ' ', 'i', 'f', ' ',
        '\x7d', '\x7d', '\x7d', '\\', 'n', '\\', '"', '\\', '\\', '"'] := by decide +kernel
  rw [← htext]
  exact parse_quoted {} _ ⟨by decide +kernel, by simp [StringPart.Apart]⟩ rfl (by decide +kernel)

end Remap
