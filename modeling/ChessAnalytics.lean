import ChessAnalytics.Stockfish.Options
import ChessAnalytics.Stockfish.Rejection
import ChessAnalytics.Lc0.Decoding
import ChessAnalytics.Surprise.Spelling
import ChessAnalytics.Surprise.Sharding
import ChessAnalytics.Surprise.Durability
import ChessAnalytics.Surprise.Ranking
import ChessAnalytics.Lc0.Asked
import ChessAnalytics.Lc0.Heads
import ChessAnalytics.Games.Verdicts
import ChessAnalytics.Candidates.SameVerdict
import ChessAnalytics.Candidates.Games
import ChessAnalytics.Surprise.Completion
import ChessAnalytics.Games.Arbiter
import ChessAnalytics.Lc0.Fen
import ChessAnalytics.Lc0.Extend
import ChessAnalytics.Surprise.Slices
