import Jack.Token.Basic

/-!
# Token sinks

A sink is told of every token as it is consumed and of the end of the unit. It may refuse, which
stops the compilation with the sink's own words.
-/

namespace Jack

/-- A receiver of tokens with state `σ`. A refusal leaves a state behind too. -/
structure Sink (σ : Type) where
  /-- A token was consumed. -/
  token : Token → EStateM String σ Unit
  /-- The unit was read to its end. -/
  finish : EStateM String σ Unit

/-- A sink that keeps what it is given, up to a number of tokens. -/
structure Collector where
  limit : Option Nat
  tokens : Array Token := #[]
  finished : Nat := 0

namespace Collector

/-- What a full collector answers. -/
def full : String := "sink full"

/-- Keep a token, unless the collector is full. -/
def receive (token : Token) : EStateM String Collector Unit := fun c =>
  if c.limit.any fun limit => limit ≤ c.tokens.size then
    .error full c
  else
    .ok () { c with tokens := c.tokens.push token }

/-- The collector as a sink. -/
def sink : Sink Collector where
  token := receive
  finish := modify fun c => { c with finished := c.finished + 1 }

end Collector

/-- The sink that ignores everything. -/
def Sink.silent : Sink Unit where
  token _ := pure ()
  finish := pure ()

end Jack
