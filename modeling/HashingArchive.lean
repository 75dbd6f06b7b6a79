import HashingArchive.Hashtable.Occupancy
import HashingArchive.Hashtable.Quadratic
import HashingArchive.Hashtable.CuckooSentinel
import HashingArchive.Hashtable.ChainedLookup
import HashingArchive.Join.Scalar
import HashingArchive.Join.ImvScalar
import HashingArchive.Convenience.Semaphore
import HashingArchive.Benchmark.DatasetTail
import HashingArchive.Benchmark.Shuffle
import HashingArchive.Benchmark.Collisions
import HashingArchive.Benchmark.Csv
import HashingArchive.Join.Sampling
import HashingArchive.LearnedModels.RmiSeams
import HashingArchive.Hashing.Mult
import HashingArchive.Hashing.MultAdd
import HashingArchive.Hashing.City
import HashingArchive.Hashing.Tabulation
import HashingArchive.Hashtable.LookupSteps
import HashingArchive.Hashtable.ChainedStatistics
import HashingArchive.Hashtable.Termination
import HashingArchive.Join.LearnedLeaves
import HashingArchive.Join.LearnedSample
import HashingArchive.Hashtable.RobinhoodQuadratic
import HashingArchive.Join.ParallelJoin
import HashingArchive.Join.DataGeneration
import HashingArchive.Join.Io
import HashingArchive.Join.Barrier
import HashingArchive.LearnedModels.RadixSplineMap
import HashingArchive.LearnedModels.RadixSplineBytes
import HashingArchive.Reduction.LibdividePortable
import HashingArchive.Reduction.LibdivideWide
import HashingArchive.Reduction.FastModulo
