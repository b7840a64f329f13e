import JavaMinus.Proofs.RoundTrip
import JavaMinus.Proofs.PlacedTrees

/-!
# Printed expressions and statements are read back

What holds of files holds of their parts: the printed form of a statement or of an expression is
read as the same tree, wherever it stands (`printed_parts_read_back`). An expression may be
printed for any place, with the parentheses that the place asks for, and something that closes it
has to come behind it; a statement ends by itself. Reading stops right behind the printed tokens
(`Reads.exact`).
-/

namespace JavaMinus.Syntax

variable {α : Type}

/-- **The printed form of an expression or of a statement is read as the same tree, up to the
places of its parts, and reading stops right behind its tokens.** -/
theorem printed_parts_read_back : (∀ (x : Expr α) (outer : Nat), x.Readable → outer ≤ operandLevel →
      ∃ text tokens stop, x.print outer = .ok text ∧ scan text.toUTF8.toList = .ok (tokens, stop) ∧
        ∀ more stop', ClosedBy more → ∃ y, expr ⟨tokens ++ more, stop'⟩ = .ok (y, ⟨more, stop'⟩) ∧
          y.map (fun _ => ()) = x.map fun _ => ()) ∧
    ∀ (s : Stmt α) (depth : Nat), s.Readable → depth + s.nesting ≤ maxIndent →
      ∃ text tokens stop, s.print depth = .ok text ∧ scan text.toUTF8.toList = .ok (tokens, stop) ∧
        ∀ more stop', ∃ y, stmt ⟨tokens ++ more, stop'⟩ = .ok (y, ⟨more, stop'⟩) ∧
          y.map (fun _ => ()) = s.map fun _ => () := by
  constructor
  · intro x outer readable le
    obtain ⟨text, printed, spells⟩ := readable.written outer
    have spelled := spells [] (by simp [Stops])
    rw [List.append_nil] at spelled
    obtain ⟨tokens, stop, scanned, lexemes⟩ := spelled.scan_text ⟨1, 1⟩
    refine ⟨text, tokens, stop, printed, scanned, fun more stop' closed => ?_⟩
    exact Reads.exact (lexemes ▸ reads_expr_at readable le closed.ends) stop'
  · intro s depth readable shallow
    obtain ⟨text, printed, spells⟩ := readable.written depth shallow
    have spelled := spells []
    rw [List.append_nil] at spelled
    obtain ⟨tokens, stop, scanned, lexemes⟩ := spelled.scan_text ⟨1, 1⟩
    refine ⟨text, tokens, stop, printed, scanned, fun more stop' => ?_⟩
    exact Reads.exact (lexemes ▸ reads_stmt readable) stop'

/-- The tree of `(a - (b - 1)) * !c[0].length.f(a, this)`. -/
def productTree : Expr Unit :=
  .binary () .mul (.binary () .sub (.ident () "a") (.binary () .sub (.ident () "b") (.int () 1)))
    (.not () (.call () (.length () (.index () (.ident () "c") (.int () 0))) "f"
      [.ident () "a", .this ()]))

/-- A loop whose body has a branch with an index that starts like an assignment. -/
def loopTree : Stmt Unit :=
  .while () (.binary () .and (.bool () true) productTree)
    (.block () [.ifElse () (.newArray () productTree)
      (.arrayAssign () ⟨(), "a"⟩ (.int () 2) productTree) (.expr () (.index () (.ident () "a")
        (.newObject () "B"))), .assign () ⟨(), "b"⟩ productTree])

theorem isName_of_loop : ∀ s ∈ ["a", "b", "c", "f", "B"], IsName s := by
  have plain : ∀ s ∈ ["a", "b", "c", "f", "B"], s ∉ reserved ∧ looksLikeWord s = true := by
    decide +kernel
  exact fun s member => ⟨(plain s member).1, isWord_of_looks (plain s member).2⟩

theorem productTree_readable : productTree.Readable := by
  have ident : ∀ s ∈ ["a", "b", "c", "f", "B"], (Expr.ident () s).Readable :=
    fun s member => .ident (isName_of_loop s member)
  refine .binary (by decide) (.binary (by decide) (ident _ (by decide)) ?_) (.not ?_)
  · exact .binary (by decide) (ident _ (by decide)) (.int (by decide))
  · refine .call (.length (.index (ident _ (by decide)) (.int (by decide))))
      (isName_of_loop _ (by decide)) ?_
    simpa using ⟨ident _ (by decide), .this⟩

theorem loopTree_readable : loopTree.Readable := by
  refine .while (.binary (by decide) .bool productTree_readable) (.block ?_)
  simp only [List.mem_cons, List.not_mem_nil, or_false, forall_eq_or_imp, forall_eq]
  constructor
  · refine .ifElse (.newArray productTree_readable) (.arrayAssign ?_ (.int (by decide)) ?_)
      (.expr ?_)
    · exact isName_of_loop _ (by decide)
    · exact productTree_readable
    · exact .index (.ident (isName_of_loop _ (by decide)))
        (.newObject (isName_of_loop _ (by decide)))
  · exact .assign (isName_of_loop _ (by decide)) productTree_readable

theorem printed_parts_read_back_loop : (productTree.Readable ∧ 6 ≤ operandLevel ∧
      ∃ text tokens stop, productTree.print 6 = .ok text ∧
        scan text.toUTF8.toList = .ok (tokens, stop) ∧ ∀ more stop', ClosedBy more →
          ∃ y, expr ⟨tokens ++ more, stop'⟩ = .ok (y, ⟨more, stop'⟩) ∧
            y.map (fun _ => ()) = productTree.map fun _ => ()) ∧
    loopTree.Readable ∧ 12 + loopTree.nesting ≤ maxIndent ∧
      ∃ text tokens stop, loopTree.print 12 = .ok text ∧
        scan text.toUTF8.toList = .ok (tokens, stop) ∧ ∀ more stop',
          ∃ y, stmt ⟨tokens ++ more, stop'⟩ = .ok (y, ⟨more, stop'⟩) ∧
            y.map (fun _ => ()) = loopTree.map fun _ => () := by
  have shallow : 12 + loopTree.nesting ≤ maxIndent := by decide
  refine ⟨⟨productTree_readable, by decide, ?_⟩, loopTree_readable, shallow, ?_⟩
  · exact printed_parts_read_back.1 _ 6 productTree_readable (by decide)
  · exact printed_parts_read_back.2 _ 12 loopTree_readable shallow

end JavaMinus.Syntax
